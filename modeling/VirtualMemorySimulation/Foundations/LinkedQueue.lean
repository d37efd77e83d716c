import VirtualMemorySimulation.Foundations.Execution

/-!
# Intrusive FIFO queues

A family of queues shares one `next` pointer per node. Each queue keeps its
head, its tail and a count, and trusts the count. Abstractly the family is a
list of nodes for each queue. The two agree as long as no node is linked twice,
so a node may be enqueued only when it is in no queue.
-/

namespace VirtualMemorySimulation.LinkedQueue

open Execution

/-- The operations of a family of queues of nodes `ν`, addressed by `κ`. -/
class QueueStore (σ : Type) (κ ν : outParam Type) where
  init : κ → σ → σ
  enqueue : κ → Option ν → σ → Except Stop σ
  dequeue : κ → σ → Except Stop (Option ν × σ)
  peek : κ → σ → Option ν
  size : κ → σ → ℕ
  search : κ → (ν → Bool) → ℕ → σ → Except Stop (Option ν)

structure Queue (ν : Type) where
  head : Option ν
  tail : Option ν
  size : ℕ

/-- The queue records with the `next` pointers of the nodes. -/
structure Links (κ ν : Type) where
  queue : κ → Queue ν
  next : ν → Option ν

/-- The nodes of each queue, from head to tail. -/
@[ext] structure Lists (κ ν : Type) where
  nodes : κ → List ν

instance (κ ν : Type) : CoeFun (Lists κ ν) fun _ => κ → List ν := ⟨Lists.nodes⟩

variable {κ ν : Type}

namespace Links

variable [DecidableEq κ] [DecidableEq ν]

def init (q : κ) (L : Links κ ν) : Links κ ν :=
  { L with queue := Function.update L.queue q ⟨none, none, 0⟩ }

/-- The node becomes the tail; an empty queue, by its count, gets a new head as well. -/
def enqueue (q : κ) (node : Option ν) (L : Links κ ν) : Except Stop (Links κ ν) :=
  match node with
  | none => .error .nullDereference
  | some p =>
    if (L.queue q).size = 0 then
      .ok ⟨Function.update L.queue q ⟨some p, some p, 1⟩, Function.update L.next p none⟩
    else
      match (L.queue q).tail with
      | none => .error .nullDereference
      | some t =>
        .ok ⟨Function.update L.queue q ⟨(L.queue q).head, some p, (L.queue q).size + 1⟩,
          Function.update (Function.update L.next t (some p)) p none⟩

def dequeue (q : κ) (L : Links κ ν) : Except Stop (Option ν × Links κ ν) :=
  if (L.queue q).size = 0 then .ok (none, L)
  else
    match (L.queue q).head with
    | none => .error .nullDereference
    | some p =>
      let queue : Queue ν :=
        if (L.queue q).size = 1 then ⟨none, none, 0⟩
        else ⟨L.next p, (L.queue q).tail, (L.queue q).size - 1⟩
      .ok (some p, ⟨Function.update L.queue q queue, Function.update L.next p none⟩)

theorem enqueue_counts {q : κ} {p : ν} {L L' : Links κ ν} (h : enqueue q (some p) L = .ok L') :
    (L'.queue q).size = (L.queue q).size + 1 ∧ ∀ q', q' ≠ q → L'.queue q' = L.queue q' := by
  rw [enqueue] at h
  by_cases hsize : (L.queue q).size = 0
  · rw [if_pos hsize] at h
    cases h
    exact ⟨by simp [hsize], fun q' hq' => Function.update_of_ne hq' _ _⟩
  · rw [if_neg hsize] at h
    cases htail : (L.queue q).tail with
    | none => simp [htail] at h
    | some t =>
      rw [htail] at h
      cases h
      exact ⟨by simp, fun q' hq' => Function.update_of_ne hq' _ _⟩

theorem dequeue_cleared {q : κ} {p : ν} {L L' : Links κ ν} (h : dequeue q L = .ok (some p, L')) :
    L'.next p = none := by
  rw [dequeue] at h
  by_cases hsize : (L.queue q).size = 0
  · rw [if_pos hsize] at h
    cases h
  · rw [if_neg hsize] at h
    cases hhead : (L.queue q).head with
    | none => simp [hhead] at h
    | some r =>
      rw [hhead] at h
      cases h
      exact Function.update_self ..

/-- The first node from a link on that passes the test. -/
def walk (next : ν → Option ν) (found : ν → Bool) : ℕ → Option ν → Except Stop (Option ν)
  | 0, _ => .error .outOfFuel
  | _ + 1, none => .ok none
  | fuel + 1, some p => if found p then .ok (some p) else walk next found fuel (next p)

def forEach {β : Type} (next : ν → Option ν) (visit : β → ν → Except Stop β) :
    ℕ → Option ν → β → Except Stop β
  | 0, _, _ => .error .outOfFuel
  | _ + 1, none, b => .ok b
  | fuel + 1, some p, b => do
    let b ← visit b p
    forEach next visit fuel (next p) b

instance : QueueStore (Links κ ν) κ ν where
  init := init
  enqueue := enqueue
  dequeue := dequeue
  peek q L := (L.queue q).head
  size q L := (L.queue q).size
  search q found fuel L := walk L.next found fuel (L.queue q).head

end Links

namespace Lists

variable [DecidableEq κ]

def set (q : κ) (l : List ν) (A : Lists κ ν) : Lists κ ν := ⟨Function.update A.nodes q l⟩

def enqueue (q : κ) (node : Option ν) (A : Lists κ ν) : Except Stop (Lists κ ν) :=
  match node with
  | none => .error .nullDereference
  | some p => .ok (A.set q (A q ++ [p]))

def dequeue (q : κ) (A : Lists κ ν) : Except Stop (Option ν × Lists κ ν) :=
  match A q with
  | [] => .ok (none, A)
  | p :: l => .ok (some p, A.set q l)

/-- The first node of a list that passes the test, one unit of fuel a link. -/
def walk (found : ν → Bool) : ℕ → List ν → Except Stop (Option ν)
  | 0, _ => .error .outOfFuel
  | _ + 1, [] => .ok none
  | fuel + 1, p :: l => if found p then .ok (some p) else walk found fuel l

instance : QueueStore (Lists κ ν) κ ν where
  init q A := A.set q []
  enqueue := enqueue
  dequeue := dequeue
  peek q A := (A q).head?
  size q A := (A q).length
  search q found fuel A := walk found fuel (A q)

variable {A : Lists κ ν} {q : κ} {p : ν} {l : List ν}

@[simp] theorem set_self : (A.set q l) q = l := Function.update_self ..

theorem set_of_ne {q' : κ} (h : q' ≠ q) : (A.set q l) q' = A q' := Function.update_of_ne h ..

@[simp] theorem set_eq_self (A : Lists κ ν) (q : κ) : A.set q (A q) = A := by
  simp [set]

@[simp] theorem set_set (l' : List ν) : (A.set q l).set q l' = A.set q l' := by
  simp [set]

/-- No node is in two places. -/
structure Distinct (A : Lists κ ν) : Prop where
  nodup : ∀ q, (A q).Nodup
  apart : ∀ q q' p, p ∈ A q → p ∈ A q' → q = q'

theorem Distinct.set (h : Distinct A) (hl : l.Nodup)
    (hmem : ∀ p ∈ l, ∀ q', p ∈ A q' → q' = q) : Distinct (A.set q l) := by
  constructor
  · intro q'
    by_cases hq : q' = q
    · subst hq
      rwa [set_self]
    · rw [set_of_ne hq]
      exact h.nodup q'
  · intro q₁ q₂ p h₁ h₂
    by_cases hq₁ : q₁ = q <;> by_cases hq₂ : q₂ = q
    · exact hq₁.trans hq₂.symm
    · subst hq₁
      rw [set_self] at h₁
      rw [set_of_ne hq₂] at h₂
      exact (hmem p h₁ q₂ h₂).symm
    · subst hq₂
      rw [set_self] at h₂
      rw [set_of_ne hq₁] at h₁
      exact hmem p h₂ q₁ h₁
    · rw [set_of_ne hq₁] at h₁
      rw [set_of_ne hq₂] at h₂
      exact h.apart q₁ q₂ p h₁ h₂

omit [DecidableEq κ] in
theorem Distinct.of_perm {B : Lists κ ν} (h : Distinct A) (hB : ∀ q, (B q).Perm (A q)) :
    Distinct B :=
  ⟨fun q => (hB q).nodup_iff.mpr (h.nodup q), fun q q' p hp hp' =>
    h.apart q q' p ((hB q).mem_iff.mp hp) ((hB q').mem_iff.mp hp')⟩

theorem Distinct.enqueue (h : Distinct A) (hp : ∀ q', p ∉ A q') :
    Distinct (A.set q (A q ++ [p])) := by
  refine h.set (List.nodup_append.mpr ⟨h.nodup q, by simp, ?_⟩) ?_
  · rintro r hr s hs rfl
    exact hp q (List.mem_singleton.mp hs ▸ hr)
  · intro r hr q' hq'
    rcases List.mem_append.mp hr with hr | hr
    · exact h.apart q' q r hq' hr
    · exact absurd hq' (List.mem_singleton.mp hr ▸ hp q')

theorem Distinct.dequeue (h : Distinct A) (hq : A q = p :: l) : Distinct (A.set q l) := by
  have hnodup := h.nodup q
  rw [hq] at hnodup
  exact h.set hnodup.of_cons fun r hr q' hq' => h.apart q' q r hq' (by simp [hq, hr])

theorem dequeue_nil (h : A q = []) : QueueStore.dequeue q A = .ok (none, A) := by
  change dequeue q A = _
  rw [dequeue, h]

theorem dequeue_cons (h : A q = p :: l) : QueueStore.dequeue q A = .ok (some p, A.set q l) := by
  change dequeue q A = _
  rw [dequeue, h]

theorem mem_enqueue {r : ν} {q' : κ} :
    r ∈ (A.set q (A q ++ [p])) q' ↔ r ∈ A q' ∨ q' = q ∧ r = p := by
  by_cases hq : q' = q
  · subst hq
    simp
  · simp [set_of_ne hq, hq]

theorem Distinct.mem_dequeue (h : Distinct A) (hq : A q = p :: l) {r : ν} {q' : κ} :
    r ∈ (A.set q l) q' ↔ r ∈ A q' ∧ r ≠ p := by
  have hnodup := h.nodup q
  rw [hq, List.nodup_cons] at hnodup
  by_cases hq' : q' = q
  · subst hq'
    rw [set_self, hq, List.mem_cons]
    constructor
    · exact fun hr => ⟨Or.inr hr, fun heq => hnodup.1 (heq ▸ hr)⟩
    · rintro ⟨rfl | hr, hne⟩
      · exact absurd rfl hne
      · exact hr
  · rw [set_of_ne hq']
    exact ⟨fun hr => ⟨hr, fun heq => hq' (h.apart q' q r hr (by simp [hq, heq]))⟩, And.left⟩

/-- The head of one list comes to the end of another. -/
def move (q q' : κ) (p : ν) (l : List ν) (A : Lists κ ν) : Lists κ ν :=
  (A.set q l).set q' ((A.set q l) q' ++ [p])

theorem move_source {q' : κ} (h : q ≠ q') : (A.move q q' p l) q = l := by
  rw [move, set_of_ne h, set_self]

theorem move_target {q' : κ} (h : q' ≠ q) : (A.move q q' p l) q' = A q' ++ [p] := by
  rw [move, set_self, set_of_ne h]

theorem move_of_ne {q' r : κ} (h : r ≠ q) (h' : r ≠ q') : (A.move q q' p l) r = A r := by
  rw [move, set_of_ne h', set_of_ne h]

theorem Distinct.mem_move (h : Distinct A) (hq : A q = p :: l) {q' q'' : κ} {r : ν} :
    r ∈ (A.move q q' p l) q'' ↔ r ∈ A q'' ∧ r ≠ p ∨ q'' = q' ∧ r = p := by
  rw [move, mem_enqueue, h.mem_dequeue hq]

theorem Distinct.move (h : Distinct A) (hq : A q = p :: l) (q' : κ) :
    Distinct (A.move q q' p l) :=
  (h.dequeue hq).enqueue fun _ hp => ((h.mem_dequeue hq).mp hp).2 rfl

end Lists

section Agreement

/-- The nodes met by following `next` from a link up to the null pointer. -/
inductive Chain (next : ν → Option ν) : Option ν → List ν → Prop
  | nil : Chain next none []
  | cons {p : ν} {l : List ν} : Chain next (next p) l → Chain next (some p) (p :: l)

theorem Chain.link {next : ν → Option ν} {h : Option ν} {p : ν} {l : List ν} (hp : h = some p)
    (hl : Chain next (next p) l) : Chain next h (p :: l) := by
  rw [hp]
  exact .cons hl

theorem Chain.last {next : ν → Option ν} {h : Option ν} (hnone : h = none) : Chain next h [] := by
  rw [hnone]
  exact .nil

theorem Chain.unique {next : ν → Option ν} {h : Option ν} {l l' : List ν} (hl : Chain next h l)
    (hl' : Chain next h l') : l = l' := by
  induction hl generalizing l' with
  | nil =>
    cases hl'
    rfl
  | cons _ ih =>
    cases hl' with
    | cons hl' => rw [ih hl']

theorem Chain.head_eq {next : ν → Option ν} {h : Option ν} {l : List ν} (hl : Chain next h l) :
    h = l.head? := by
  cases hl with
  | nil => rfl
  | cons _ => rfl

theorem Chain.next_last {next : ν → Option ν} {h : Option ν} {l : List ν} {t : ν}
    (hl : Chain next h l) (ht : l.getLast? = some t) : next t = none := by
  induction hl with
  | nil => cases ht
  | @cons p l hrest ih =>
    cases l with
    | nil =>
      obtain rfl : p = t := by simpa using ht
      exact hrest.head_eq
    | cons r l => exact ih (by simpa using ht)

theorem Chain.congr {next next' : ν → Option ν} {h : Option ν} {l : List ν}
    (hl : Chain next h l) (heq : ∀ p ∈ l, next' p = next p) : Chain next' h l := by
  induction hl with
  | nil => exact .nil
  | @cons p l _ ih =>
    refine .cons ?_
    rw [heq p (by simp)]
    exact ih fun r hr => heq r (by simp [hr])

/-- A chain grows at its last node. -/
theorem Chain.snoc [DecidableEq ν] {next : ν → Option ν} {h : Option ν} {l : List ν} {t p : ν}
    (hl : Chain next h (l ++ [t])) (ht : t ∉ l) (hp : p ∉ l ++ [t]) :
    Chain (Function.update (Function.update next t (some p)) p none) h (l ++ [t] ++ [p]) := by
  induction l generalizing h with
  | nil =>
    cases hl
    refine .cons ?_
    have hne : t ≠ p := by
      rintro rfl
      simp at hp
    rw [Function.update_of_ne hne, Function.update_self]
    refine .cons ?_
    rw [Function.update_self]
    exact .nil
  | cons r l ih =>
    cases hl with
    | cons hl =>
      simp only [List.cons_append, List.mem_cons, not_or] at ht hp
      refine .cons ?_
      rw [Function.update_of_ne (Ne.symm hp.1), Function.update_of_ne (Ne.symm ht.1)]
      exact ih hl ht.2 hp.2

theorem Chain.after {next : ν → Option ν} {h : Option ν} {l post : List ν} {p : ν}
    (hl : Chain next h (l ++ p :: post)) : Chain next (next p) post := by
  induction l generalizing h with
  | nil =>
    cases hl with
    | cons hpost => exact hpost
  | cons x l ih =>
    cases hl with
    | cons hrest => exact ih hrest

theorem Chain.unlink [DecidableEq ν] {next : ν → Option ν} {h : Option ν} {l post : List ν}
    {r p : ν} (hl : Chain next h (l ++ r :: p :: post)) (hnodup : (l ++ r :: p :: post).Nodup) :
    Chain (Function.update next r (next p)) h (l ++ r :: post) := by
  induction l generalizing h with
  | nil =>
    cases hl with
    | cons hp =>
      generalize hnext : next r = link at hp
      cases hp with
      | cons hpost =>
        refine .cons ?_
        rw [Function.update_self]
        refine hpost.congr fun x hx => Function.update_of_ne ?_ _ _
        rintro rfl
        simp [hx] at hnodup
  | cons x l ih =>
    cases hl with
    | cons hrest =>
      have hx := List.nodup_cons.mp hnodup
      refine .cons ?_
      rw [Function.update_of_ne fun heq => hx.1 (by simp [heq])]
      exact ih hrest hx.2

/-- A queue record whose chain, tail and count are those of a list. -/
structure Queue.Denotes (next : ν → Option ν) (q : Queue ν) (l : List ν) : Prop where
  chain : Chain next q.head l
  tail : q.tail = l.getLast?
  size : q.size = l.length

/-- Every queue of the links is that of the lists, and no node is in two places. -/
structure Agrees (L : Links κ ν) (A : Lists κ ν) : Prop where
  denotes : ∀ q, (L.queue q).Denotes L.next (A q)
  distinct : A.Distinct

section Refinement

variable [DecidableEq κ] {L : Links κ ν} {A : Lists κ ν}

theorem Agrees.update (h : Agrees L A) {q : κ} {record : Queue ν} {next : ν → Option ν} {l : List ν}
    (hrecord : record.Denotes next l)
    (hnext : ∀ q', q' ≠ q → ∀ r ∈ A q', next r = L.next r) (hl : (A.set q l).Distinct) :
    Agrees ⟨Function.update L.queue q record, next⟩ (A.set q l) := by
  refine ⟨fun q' => ?_, hl⟩
  dsimp only
  by_cases hq : q' = q
  · subst hq
    rwa [Function.update_self, Lists.set_self]
  · rw [Function.update_of_ne hq, Lists.set_of_ne hq]
    have hq' := h.denotes q'
    exact ⟨hq'.chain.congr (hnext q' hq), hq'.tail, hq'.size⟩

variable [DecidableEq ν]

theorem Agrees.peek (h : Agrees L A) (q : κ) : QueueStore.peek q L = QueueStore.peek q A :=
  (h.denotes q).chain.head_eq

theorem Agrees.size (h : Agrees L A) (q : κ) : QueueStore.size q L = QueueStore.size q A :=
  (h.denotes q).size

theorem Agrees.init (h : Agrees L A) (q : κ) :
    Agrees (QueueStore.init q L) (QueueStore.init q A) :=
  h.update ⟨.nil, rfl, rfl⟩ (fun _ _ _ _ => rfl) (h.distinct.set .nil (by simp))

theorem Agrees.enqueue (h : Agrees L A) (q : κ) {node : Option ν}
    (hnode : ∀ p, node = some p → ∀ q', p ∉ A q') :
    Matches Agrees (QueueStore.enqueue q node L) (QueueStore.enqueue q node A) := by
  cases node with
  | none => exact .error
  | some p =>
    have hp := hnode p rfl
    have hq := h.denotes q
    change Matches Agrees (Links.enqueue q (some p) L) (.ok (A.set q (A q ++ [p])))
    rcases List.eq_nil_or_concat (A q) with hnil | ⟨l, t, hl⟩
    · rw [Links.enqueue, if_pos (by rw [hq.size, hnil]; rfl)]
      refine .ok (h.update ?_ (fun q' _ r hr => ?_) (h.distinct.enqueue hp))
      · rw [hnil]
        exact ⟨.cons (by rw [Function.update_self]; exact .nil), rfl, rfl⟩
      · exact Function.update_of_ne (ne_of_mem_of_not_mem hr (hp q')) _ _
    · rw [List.concat_eq_append] at hl
      have htail : (L.queue q).tail = some t := by rw [hq.tail, hl, List.getLast?_append]; rfl
      have hsize : (L.queue q).size ≠ 0 := by rw [hq.size, hl]; simp
      have hnodup := h.distinct.nodup q
      rw [Links.enqueue, if_neg hsize, htail]
      refine .ok (h.update ⟨?_, by simp, by simp [hq.size]⟩ (fun q' hqq r hr => ?_)
        (h.distinct.enqueue hp))
      · have hchain := hq.chain
        have hpq := hp q
        rw [hl] at hchain hnodup hpq ⊢
        have ht : t ∉ l := fun hmem => (List.nodup_append.mp hnodup).2.2 t hmem t (by simp) rfl
        exact hchain.snoc ht hpq
      · have hrt : r ≠ t := by
          rintro rfl
          exact hqq (h.distinct.apart q' q r hr (by rw [hl]; simp))
        rw [Function.update_of_ne (ne_of_mem_of_not_mem hr (hp q')), Function.update_of_ne hrt]

/-- The node that is dequeued is in no queue any more. -/
theorem Agrees.dequeue (h : Agrees L A) (q : κ) :
    Matches (fun a b => a.1 = b.1 ∧ Agrees a.2 b.2 ∧ ∀ p, b.1 = some p → ∀ q', p ∉ b.2 q')
      (QueueStore.dequeue q L) (QueueStore.dequeue q A) := by
  have hq := h.denotes q
  have hchain := hq.chain
  change Matches _ (Links.dequeue q L) (Lists.dequeue q A)
  rw [Links.dequeue, Lists.dequeue, hq.size]
  cases hl : A q with
  | nil => exact .ok ⟨rfl, h, by simp⟩
  | cons p l =>
    have hnodup := h.distinct.nodup q
    rw [hl] at hchain hnodup
    generalize hhead : (L.queue q).head = head at hchain
    cases hchain with
    | cons hrest =>
      have hrest' : Chain (Function.update L.next p none) (L.next p) l := hrest.congr fun s hs =>
        Function.update_of_ne (ne_of_mem_of_not_mem hs (List.nodup_cons.mp hnodup).1) _ _
      rw [if_neg (by simp)]
      refine .ok ⟨rfl, h.update ?_ (fun q' hqq s hs => ?_) (h.distinct.dequeue hl), ?_⟩
      · cases l with
        | nil =>
          rw [if_pos (by simp)]
          exact ⟨.nil, rfl, rfl⟩
        | cons s l =>
          rw [if_neg (by simp)]
          exact ⟨hrest', by simp [hq.tail, hl], by simp⟩
      · refine Function.update_of_ne ?_ _ _
        rintro rfl
        exact hqq (h.distinct.apart q' q s hs (by rw [hl]; simp))
      · intro s hs q' hmem
        exact ((h.distinct.mem_dequeue hl).mp hmem).2 (Option.some.inj hs).symm

end Refinement

end Agreement

section Search

theorem Chain.walk {next : ν → Option ν} {h : Option ν} {l : List ν} (hl : Chain next h l)
    (found : ν → Bool) (n : ℕ) : Links.walk next found n h = Lists.walk found n l := by
  induction hl generalizing n with
  | nil => cases n <;> rfl
  | @cons p l _ ih =>
    cases n with
    | zero => rfl
    | succ n => simp only [Links.walk, Lists.walk, ih]

theorem Chain.forEach {β : Type} {next : ν → Option ν} {h : Option ν} {l : List ν}
    (hl : Chain next h l) (visit : β → ν → Except Stop β) (b : β) :
    Settles (fun n => Links.forEach next visit n h b) (l.foldlM visit b) := by
  induction hl generalizing b with
  | nil => exact Settles.succ rfl (fun n => rfl) (Settles.const _)
  | @cons p l _ ih =>
    rw [List.foldlM_cons]
    cases hb : visit b p with
    | error e =>
      exact Settles.succ rfl (fun n => by rw [Links.forEach, hb]; rfl) (Settles.const _)
    | ok b' => exact Settles.succ rfl (fun n => by rw [Links.forEach, hb]; rfl) (ih b')

theorem Agrees.search [DecidableEq κ] [DecidableEq ν] {L : Links κ ν} {A : Lists κ ν}
    (h : Agrees L A) (q : κ) (found : ν → Bool) (n : ℕ) :
    QueueStore.search q found n L = QueueStore.search q found n A :=
  (h.denotes q).chain.walk found n

theorem Lists.walk_settles (found : ν → Bool) (l : List ν) :
    Settles (fun n => Lists.walk found n l) (.ok (l.find? found)) := by
  induction l with
  | nil => exact Settles.succ rfl (fun n => rfl) (Settles.const _)
  | cons p l ih =>
    rw [List.find?_cons]
    cases hp : found p with
    | true =>
      exact Settles.succ rfl (fun n => by rw [Lists.walk, if_pos hp]) (Settles.const _)
    | false =>
      exact Settles.succ rfl (fun n => by rw [Lists.walk, if_neg (by simp [hp])]) ih

end Search

section Storage

variable [DecidableEq κ] {L : Links κ ν} {live : Finset κ} {q : κ}

/-- The links with every queue that is not live read as empty. -/
def Links.mask (live : Finset κ) (L : Links κ ν) : Links κ ν :=
  { L with queue := fun q => if q ∈ live then L.queue q else ⟨none, none, 0⟩ }

theorem Links.mask_queue (hq : q ∈ live) : (L.mask live).queue q = L.queue q := if_pos hq

theorem Links.mask_update (record : Queue ν) (next : ν → Option ν) :
    (⟨Function.update L.queue q record, next⟩ : Links κ ν).mask (insert q live) =
      ⟨Function.update (L.mask live).queue q record, next⟩ := by
  have hqueue : ∀ q', (if q' ∈ insert q live then Function.update L.queue q record q' else
      ⟨none, none, 0⟩) = Function.update (L.mask live).queue q record q' := by
    intro q'
    by_cases heq : q' = q
    · subst heq
      simp
    · simp [heq, Links.mask]
  exact congrArg (Links.mk · next) (funext hqueue)

theorem Links.mask_init (q : κ) (L : Links κ ν) (live : Finset κ) :
    (Links.init q L).mask (insert q live) = Links.init q (L.mask live) :=
  Links.mask_update _ _

variable [DecidableEq ν]

/-- On a live queue, enqueueing does not look at the others. -/
theorem Links.mask_enqueue (hq : q ∈ live) (node : Option ν) :
    Links.enqueue q node (L.mask live) = (Links.enqueue q node L).map (Links.mask live) := by
  cases node with
  | none => rfl
  | some p =>
    rw [Links.enqueue, Links.enqueue, Links.mask_queue hq]
    by_cases hsize : (L.queue q).size = 0
    · rw [if_pos hsize, if_pos hsize, ← Links.mask_update, Finset.insert_eq_of_mem hq]
      rfl
    · rw [if_neg hsize, if_neg hsize]
      cases (L.queue q).tail with
      | none => rfl
      | some t =>
        dsimp only
        rw [← Links.mask_update, Finset.insert_eq_of_mem hq]
        rfl

theorem Links.mask_dequeue (hq : q ∈ live) :
    Links.dequeue q (L.mask live) =
      (Links.dequeue q L).map fun res => (res.1, res.2.mask live) := by
  rw [Links.dequeue, Links.dequeue, Links.mask_queue hq]
  by_cases hsize : (L.queue q).size = 0
  · rw [if_pos hsize, if_pos hsize]
    rfl
  · rw [if_neg hsize, if_neg hsize]
    cases (L.queue q).head with
    | none => rfl
    | some p =>
      dsimp only
      rw [← Links.mask_update, Finset.insert_eq_of_mem hq]
      rfl

omit [DecidableEq ν] in
/-- What the links agree with when only the live queues count. -/
theorem agrees_mask {A : Lists κ ν} : Agrees (L.mask live) A ↔
    (∀ q ∈ live, (L.queue q).Denotes L.next (A q)) ∧ (∀ q ∉ live, A q = []) ∧ A.Distinct := by
  constructor
  · intro h
    refine ⟨fun q hq => ?_, fun q hq => ?_, h.distinct⟩
    · have hden := h.denotes q
      rwa [Links.mask_queue hq] at hden
    · have hempty : (L.mask live).queue q = ⟨none, none, 0⟩ := if_neg hq
      have hsize := (h.denotes q).size
      rw [hempty] at hsize
      exact List.length_eq_zero_iff.mp hsize.symm
  · rintro ⟨hlive, hnil, hdistinct⟩
    refine ⟨fun q => ?_, hdistinct⟩
    by_cases hq : q ∈ live
    · rw [Links.mask_queue hq]
      exact hlive q hq
    · rw [hnil q hq]
      simp only [Links.mask, if_neg hq]
      exact ⟨.nil, rfl, rfl⟩

end Storage

end VirtualMemorySimulation.LinkedQueue
