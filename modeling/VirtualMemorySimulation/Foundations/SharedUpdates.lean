import Mathlib.Algebra.BigOperators.Group.Finset.Basic
import Mathlib.Tactic

/-!
# Sums in shared memory

Workers add values to cells of one memory, and to its total. An addition is not
atomic: a worker reads what is there and writes the sum back later. Every cell is
used by one worker only, and the total only between a lock and an unlock.

`Consistent` relates the memory to the memories that the workers would have alone.
As long as no two workers are between the read and the write of the total, every
step keeps it, and nothing that was added gets lost.
-/

namespace VirtualMemorySimulation.SharedUpdates

open scoped BigOperators

variable {M : Type}

@[ext] structure Memory (M : Type) where
  cells : ℕ → M
  total : M

/-- What is added to the total: a value, or what a cell holds. -/
inductive Operand (M : Type) where
  | value (v : M)
  | cell (c : ℕ)
  deriving DecidableEq, Repr

inductive Update (M : Type) where
  /-- `cell += v`. -/
  | add (c : ℕ) (v : M)
  /-- `cell = v`. -/
  | assign (c : ℕ) (v : M)
  /-- `total += operand`, between a lock and an unlock. -/
  | collect (operand : Operand M)
  deriving DecidableEq, Repr

/-- How far a worker is in its update. -/
inductive Stage (M : Type) where
  | ready
  /-- The lock has been called. -/
  | entered
  /-- The old value has been read. -/
  | loaded (register : M)
  /-- The new total has been written, the unlock has not been called. -/
  | leaving
  deriving DecidableEq, Repr

structure Worker (M : Type) where
  finished : List (Update M)
  rest : List (Update M)
  stage : Stage M
  deriving DecidableEq, Repr

/-- What a step asks for besides its access to the memory. -/
inductive Request where
  | nothing
  | lock
  | unlock
  | finish
  deriving DecidableEq, Repr

def Memory.write (m : Memory M) (c : ℕ) (v : M) : Memory M :=
  { m with cells := Function.update m.cells c v }

def Operand.read (m : Memory M) : Operand M → M
  | .value v => v
  | .cell c => m.cells c

def Worker.start (updates : List (Update M)) : Worker M := ⟨[], updates, .ready⟩

def Worker.finish (w : Worker M) (update : Update M) (rest : List (Update M)) (stage : Stage M) :
    Worker M :=
  ⟨w.finished ++ [update], rest, stage⟩

def Update.apply [Add M] (m : Memory M) : Update M → Memory M
  | .add c v => m.write c (m.cells c + v)
  | .assign c v => m.write c v
  | .collect operand => { m with total := m.total + operand.read m }

def Memory.zero [Zero M] : Memory M := ⟨fun _ => 0, 0⟩

/-- The memory that updates leave when nothing else runs. -/
def runUpdates [Add M] [Zero M] (updates : List (Update M)) : Memory M :=
  updates.foldl Update.apply .zero

def Worker.step [Add M] (w : Worker M) (m : Memory M) :
    Option (Memory M × Worker M × Request) :=
  match w.stage, w.rest with
  | .ready, [] => some (m, w, .finish)
  | .ready, .add c _ :: _ => some (m, { w with stage := .loaded (m.cells c) }, .nothing)
  | .ready, .assign c v :: rest =>
    some (m.write c v, w.finish (.assign c v) rest .ready, .nothing)
  | .ready, .collect _ :: _ => some (m, { w with stage := .entered }, .lock)
  | .entered, .collect _ :: _ => some (m, { w with stage := .loaded m.total }, .nothing)
  | .loaded r, .add c v :: rest =>
    some (m.write c (r + v), w.finish (.add c v) rest .ready, .nothing)
  | .loaded r, .collect operand :: rest =>
    some ({ m with total := r + operand.read m }, w.finish (.collect operand) rest .leaving,
      .nothing)
  | .leaving, _ => some (m, { w with stage := .ready }, .unlock)
  | _, _ => none

/-- The update uses only cells of the worker `k`. -/
def Update.Within (owner : ℕ → ℕ) (k : ℕ) : Update M → Prop
  | .add c _ => owner c = k
  | .assign c _ => owner c = k
  | .collect (.cell c) => owner c = k
  | .collect (.value _) => True

theorem Update.Within.imp_owner {owner owner' : ℕ → ℕ} {k k' : ℕ} {update : Update M}
    (h : update.Within owner k) (howner : ∀ c, owner c = k → owner' c = k') :
    update.Within owner' k' := by
  cases update with
  | add c v => exact howner c h
  | assign c v => exact howner c h
  | collect operand =>
    cases operand with
    | value v => trivial
    | cell c => exact howner c h

/-- The worker is between the read and the write of the total. -/
def Worker.Inside (w : Worker M) : Prop :=
  ∃ r operand rest, w.stage = .loaded r ∧ w.rest = .collect operand :: rest

/-- At most one worker is between the read and the write of the total. -/
def Exclusive (workers : ℕ → Worker M) : Prop :=
  ∀ k k', (workers k).Inside → (workers k').Inside → k = k'

/-- The worker holds the value that its update goes on with. -/
def Worker.Current (w : Worker M) (m : Memory M) : Prop :=
  ∀ r, w.stage = .loaded r →
    (∀ c v rest, w.rest = .add c v :: rest → r = m.cells c) ∧
      ∀ operand rest, w.rest = .collect operand :: rest → r = m.total

theorem Operand.read_congr {m m' : Memory M} {owner : ℕ → ℕ} {k : ℕ} {operand : Operand M}
    (h : Update.Within owner k (.collect operand)) (hm : ∀ c, owner c = k → m'.cells c = m.cells c) :
    operand.read m' = operand.read m := by
  cases operand with
  | value v => rfl
  | cell c => exact hm c h

section Alone

variable [Add M]

theorem Update.Within.cells {owner : ℕ → ℕ} {k c : ℕ} {update : Update M} (h : update.Within owner k)
    (hc : owner c ≠ k) (m : Memory M) : (update.apply m).cells c = m.cells c := by
  cases update with
  | add c' v =>
    have hne : c ≠ c' := fun heq => hc (heq.symm ▸ h)
    exact Function.update_of_ne hne ..
  | assign c' v =>
    have hne : c ≠ c' := fun heq => hc (heq.symm ▸ h)
    exact Function.update_of_ne hne ..
  | collect operand => rfl

theorem Update.Within.cells_congr {owner : ℕ → ℕ} {k : ℕ} {update : Update M} {m m' : Memory M}
    (h : update.Within owner k) (hm : ∀ c, owner c = k → m'.cells c = m.cells c) :
    ∀ c, owner c = k → (update.apply m').cells c = (update.apply m).cells c := by
  intro c hc
  cases update with
  | add c' v =>
    by_cases heq : c = c'
    · subst heq
      simp [Update.apply, Memory.write, hm c hc]
    · simp [Update.apply, Memory.write, heq, hm c hc]
  | assign c' v =>
    by_cases heq : c = c'
    · subst heq
      simp [Update.apply, Memory.write]
    · simp [Update.apply, Memory.write, heq, hm c hc]
  | collect operand => exact hm c hc

theorem foldl_frame {owner : ℕ → ℕ} {k c : ℕ} {updates : List (Update M)}
    (h : ∀ update ∈ updates, update.Within owner k) (hc : owner c ≠ k) (m : Memory M) :
    (updates.foldl Update.apply m).cells c = m.cells c := by
  induction updates generalizing m with
  | nil => rfl
  | cons update updates ih =>
    rw [List.foldl_cons, ih fun t ht => h t (List.mem_cons_of_mem _ ht)]
    exact (h update List.mem_cons_self).cells hc m

variable [Zero M]

@[simp] theorem runUpdates_nil : runUpdates ([] : List (Update M)) = .zero := rfl

theorem runUpdates_append (updates : List (Update M)) (update : Update M) :
    runUpdates (updates ++ [update]) = update.apply (runUpdates updates) :=
  List.foldl_append

end Alone

/-- What a step of a worker that is up to date does: it goes on within its update, or it ends
the update. -/
theorem Worker.step_cases [Add M] {w w' : Worker M} {m m' : Memory M} {request : Request}
    (h : w.step m = some (m', w', request)) (hcur : w.Current m) :
    (m' = m ∧ w'.finished = w.finished ∧ w'.rest = w.rest ∧ w'.Current m) ∨
      ∃ update rest, w.rest = update :: rest ∧ m' = update.apply m ∧
        w'.finished = w.finished ++ [update] ∧ w'.rest = rest ∧ (∀ r, w'.stage ≠ .loaded r) ∧
        ∀ operand, update = .collect operand → w.Inside := by
  unfold Worker.step at h
  split at h
  case h_1 hstage hrest =>
    cases h
    exact Or.inl ⟨rfl, rfl, rfl, hcur⟩
  case h_2 c v rest hstage hrest =>
    cases h
    refine Or.inl ⟨rfl, rfl, rfl, fun r hr => ⟨fun c' v' rest' heq => ?_, fun o rest' heq => ?_⟩⟩
    · cases hrest.symm.trans heq
      exact (Stage.loaded.inj hr).symm
    · cases hrest.symm.trans heq
  case h_3 c v rest hstage hrest =>
    cases h
    exact Or.inr ⟨_, _, hrest, rfl, rfl, rfl, by simp [Worker.finish], by simp⟩
  case h_4 operand rest hstage hrest =>
    cases h
    exact Or.inl ⟨rfl, rfl, rfl, fun r hr => by cases hr⟩
  case h_5 operand rest hstage hrest =>
    cases h
    refine Or.inl ⟨rfl, rfl, rfl, fun r hr => ⟨fun c' v' rest' heq => ?_, fun o rest' heq => ?_⟩⟩
    · cases hrest.symm.trans heq
    · exact (Stage.loaded.inj hr).symm
  case h_6 r c v rest hstage hrest =>
    cases h
    have hr : r = m.cells c := (hcur r hstage).1 c v rest hrest
    exact Or.inr ⟨_, _, hrest, by rw [hr]; rfl, rfl, rfl, by simp [Worker.finish], by simp⟩
  case h_7 r operand rest hstage hrest =>
    cases h
    have hr : r = m.total := (hcur r hstage).2 operand rest hrest
    exact Or.inr ⟨_, _, hrest, by rw [hr]; rfl, rfl, rfl, by simp [Worker.finish],
      fun _ _ => ⟨r, operand, rest, hstage, hrest⟩⟩
  case h_8 hstage =>
    cases h
    exact Or.inl ⟨rfl, rfl, rfl, fun r hr => by cases hr⟩
  case h_9 => cases h

theorem Worker.step_updates [Add M] {w w' : Worker M} {m m' : Memory M} {request : Request}
    (h : w.step m = some (m', w', request)) : w'.finished ++ w'.rest = w.finished ++ w.rest := by
  unfold Worker.step at h
  split at h <;> cases h <;> simp_all [Worker.finish]

theorem Worker.step_done [Add M] {w w' : Worker M} {m m' : Memory M} {request : Request}
    (h : w.step m = some (m', w', request)) (hdone : w.rest = []) : w'.rest = [] := by
  unfold Worker.step at h
  split at h <;> cases h <;> simp_all

section Together

variable [AddCommMonoid M] {owner : ℕ → ℕ} {S : Finset ℕ} {m m' : Memory M}
  {workers workers' : ℕ → Worker M} {k : ℕ}

/-- The memory is what the workers' finished updates would have left in memories of their own. -/
structure Consistent (owner : ℕ → ℕ) (S : Finset ℕ) (m : Memory M) (workers : ℕ → Worker M) :
    Prop where
  within : ∀ k ∈ S, ∀ update ∈ (workers k).finished ++ (workers k).rest, update.Within owner k
  cells : ∀ c, m.cells c = (runUpdates (workers (owner c)).finished).cells c
  total : m.total = ∑ k ∈ S, (runUpdates (workers k).finished).total
  current : ∀ k ∈ S, (workers k).Current m

theorem Consistent.start {updates : ℕ → List (Update M)}
    (h : ∀ k ∈ S, ∀ update ∈ updates k, update.Within owner k) :
    Consistent owner S .zero fun k => .start (updates k) where
  within := h
  cells _ := rfl
  total := by simp [Worker.start, Memory.zero]
  current k _ r hr := by cases hr

theorem Update.Within.gain {update : Update M} (h : update.Within owner k)
    (hm : ∀ c, owner c = k → m.cells c = m'.cells c) :
    ∃ gain, (update.apply m).total = m.total + gain ∧ (update.apply m').total = m'.total + gain := by
  cases update with
  | add c v => exact ⟨0, (add_zero _).symm, (add_zero _).symm⟩
  | assign c v => exact ⟨0, (add_zero _).symm, (add_zero _).symm⟩
  | collect operand =>
    exact ⟨operand.read m, rfl, congrArg (m'.total + ·) (Operand.read_congr h hm).symm⟩

theorem Consistent.goesOn {w : Worker M} (h : Consistent owner S m workers)
    (hfinished : w.finished = (workers k).finished) (hrest : w.rest = (workers k).rest)
    (hcur : w.Current m) : Consistent owner S m (Function.update workers k w) := by
  have hsame : ∀ k', (Function.update workers k w k').finished = (workers k').finished := by
    intro k'
    by_cases hk : k' = k
    · subst hk
      simpa using hfinished
    · rw [Function.update_of_ne hk]
  constructor
  · intro k' hk'
    by_cases hk : k' = k
    · subst hk
      rw [Function.update_self, hfinished, hrest]
      exact h.within k' hk'
    · rw [Function.update_of_ne hk]
      exact h.within k' hk'
  · intro c
    rw [hsame]
    exact h.cells c
  · simp only [hsame]
    exact h.total
  · intro k' hk'
    by_cases hk : k' = k
    · subst hk
      rwa [Function.update_self]
    · rw [Function.update_of_ne hk]
      exact h.current k' hk'

theorem Consistent.ends {w : Worker M} {update : Update M} {rest : List (Update M)}
    (h : Consistent owner S m workers) (hk : k ∈ S) (hupdate : (workers k).rest = update :: rest)
    (hfinished : w.finished = (workers k).finished ++ [update]) (hrest : w.rest = rest)
    (hstage : ∀ r, w.stage ≠ .loaded r)
    (hothers : ∀ k', k' ≠ k → ∀ operand, update = .collect operand → ¬ (workers k').Inside) :
    Consistent owner S (update.apply m) (Function.update workers k w) := by
  have hwithin : update.Within owner k := h.within k hk update (by simp [hupdate])
  have hown : ∀ c, owner c = k → m.cells c = (runUpdates (workers k).finished).cells c :=
    fun c hc => hc ▸ h.cells c
  constructor
  · intro k' hmem
    by_cases hk' : k' = k
    · subst hk'
      rw [Function.update_self, hfinished, hrest, List.append_assoc]
      simpa [hupdate] using h.within k' hk
    · rw [Function.update_of_ne hk']
      exact h.within k' hmem
  · intro c
    by_cases hc : owner c = k
    · rw [hc, Function.update_self, hfinished, runUpdates_append]
      exact hwithin.cells_congr hown c hc
    · rw [Function.update_of_ne hc, hwithin.cells hc]
      exact h.cells c
  · -- the total and the worker's share grow by the same value
    obtain ⟨gain, htotal, hshare⟩ := hwithin.gain hown
    have hsum : ∀ k', (runUpdates (Function.update workers k w k').finished).total =
        (runUpdates (workers k').finished).total + if k' = k then gain else 0 := by
      intro k'
      by_cases hk' : k' = k
      · subst hk'
        rw [Function.update_self, hfinished, runUpdates_append, if_pos rfl, hshare]
      · rw [Function.update_of_ne hk', if_neg hk', add_zero]
    simp only [hsum, Finset.sum_add_distrib, Finset.sum_ite_eq', if_pos hk, htotal, h.total]
  · intro k' hmem r hr
    by_cases hk' : k' = k
    · subst hk'
      rw [Function.update_self] at hr
      exact absurd hr (hstage r)
    · rw [Function.update_of_ne hk'] at hr ⊢
      obtain ⟨hadd, hcollect⟩ := h.current k' hmem r hr
      constructor
      · intro c v rest' hrest'
        have hc : owner c = k' := h.within k' hmem (.add c v) (by simp [hrest'])
        rw [hwithin.cells (hc ▸ hk')]
        exact hadd c v rest' hrest'
      · intro operand rest' hrest'
        rw [hcollect operand rest' hrest']
        cases update with
        | add c v => rfl
        | assign c v => rfl
        | collect operand' =>
          exact (hothers k' hk' operand' rfl ⟨r, operand, rest', hr, hrest'⟩).elim

/-- A step keeps the memory consistent, if nobody else is between the read and the write. -/
theorem Consistent.step {w : Worker M} {request : Request} (h : Consistent owner S m workers)
    (hexclusive : Exclusive workers) (hk : k ∈ S)
    (hs : (workers k).step m = some (m', w, request)) :
    Consistent owner S m' (Function.update workers k w) := by
  rcases Worker.step_cases hs (h.current k hk) with
    ⟨rfl, hfinished, hrest, hcur⟩ | ⟨update, rest, hupdate, rfl, hfinished, hrest, hstage, hinside⟩
  · exact h.goesOn hfinished hrest hcur
  · apply h.ends hk hupdate hfinished hrest hstage
    intro k' hk' operand hcollect hin
    exact hk' (hexclusive k' k hin (hinside operand hcollect))

/-- When all are done, the total is the sum of what each would have collected alone. -/
theorem Consistent.total_of_done {updates : ℕ → List (Update M)} (h : Consistent owner S m workers)
    (hupdates : ∀ k, (workers k).finished ++ (workers k).rest = updates k)
    (hdone : ∀ k ∈ S, (workers k).rest = []) : m.total = ∑ k ∈ S, (runUpdates (updates k)).total := by
  rw [h.total]
  apply Finset.sum_congr rfl
  intro k hk
  rw [← hupdates k, hdone k hk, List.append_nil]

theorem foldl_gain {updates : List (Update M)} (h : ∀ update ∈ updates, update.Within owner k)
    (hm : ∀ c, owner c = k → m.cells c = m'.cells c) :
    ∃ gain, (updates.foldl Update.apply m).total = m.total + gain ∧
      (updates.foldl Update.apply m').total = m'.total + gain := by
  induction updates generalizing m m' with
  | nil => exact ⟨0, (add_zero _).symm, (add_zero _).symm⟩
  | cons update updates ih =>
    have hupdate := h update List.mem_cons_self
    obtain ⟨first, hfirst, hfirst'⟩ := hupdate.gain hm
    obtain ⟨later, hlater, hlater'⟩ := ih (fun t ht => h t (List.mem_cons_of_mem _ ht))
      (hupdate.cells_congr fun c hc => hm c hc)
    refine ⟨first + later, ?_, ?_⟩
    · rw [List.foldl_cons, hlater, hfirst, add_assoc]
    · rw [List.foldl_cons, hlater', hfirst', add_assoc]

theorem foldl_cells {updates : List (Update M)} (h : ∀ update ∈ updates, update.Within owner k)
    (hm : ∀ c, owner c = k → m.cells c = m'.cells c) (c : ℕ) (hc : owner c = k) :
    (updates.foldl Update.apply m).cells c = (updates.foldl Update.apply m').cells c := by
  induction updates generalizing m m' with
  | nil => exact hm c hc
  | cons update updates ih =>
    have hupdate := h update List.mem_cons_self
    exact ih (fun t ht => h t (List.mem_cons_of_mem _ ht)) (hupdate.cells_congr hm)

/-- Bodies of a loop that use cells of their own: the memory after the loop. -/
theorem runUpdates_flatMap {body : ℕ → List (Update M)} {js : List ℕ} (hnodup : js.Nodup)
    (h : ∀ j, ∀ update ∈ body j, update.Within owner j) :
    (runUpdates (js.flatMap body)).total = (js.map fun j => (runUpdates (body j)).total).sum ∧
      ∀ c, (runUpdates (js.flatMap body)).cells c =
        if owner c ∈ js then (runUpdates (body (owner c))).cells c else 0 := by
  induction js using List.reverseRecOn with
  | nil => exact ⟨rfl, fun _ => rfl⟩
  | append_singleton js j ih =>
    obtain ⟨hjs, -, hdisjoint⟩ := List.nodup_append.mp hnodup
    have hj : j ∉ js := fun hmem => hdisjoint j hmem j (List.mem_singleton_self j) rfl
    obtain ⟨htotal, hcells⟩ := ih hjs
    have hfold : runUpdates ((js ++ [j]).flatMap body) =
        (body j).foldl Update.apply (runUpdates (js.flatMap body)) := by
      simp [runUpdates, List.foldl_append]
    have hzero : ∀ c, owner c = j → (runUpdates (js.flatMap body)).cells c =
        (Memory.zero : Memory M).cells c := by
      intro c hc
      rw [hcells, if_neg (hc ▸ hj)]
      rfl
    constructor
    · obtain ⟨gain, hgain, halone⟩ := foldl_gain (h j) hzero
      have hbody : (runUpdates (body j)).total = gain := halone.trans (zero_add _)
      rw [hfold, hgain, htotal, List.map_append, List.sum_append, List.map_singleton,
        List.sum_singleton, hbody]
    · intro c
      rw [hfold]
      by_cases hc : owner c = j
      · rw [foldl_cells (h j) hzero c hc, if_pos (by simp [hc]), hc]
        rfl
      · rw [foldl_frame (h j) hc, hcells]
        simp [hc]

end Together

end VirtualMemorySimulation.SharedUpdates
