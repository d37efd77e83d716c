import Mathlib.Data.Set.Insert
import VirtualMemorySimulation.Foundations.LinkedQueue

/-!
# Turns by rota

One line of ready processes, one line of waiting processes for each resource, and
processes that take a waiting one in hand before they put it back in line. When a turn
is over, the first process goes to the end of the line unless it is to stay, and the
first one that has not finished gets the next turn.
-/

namespace VirtualMemorySimulation.TurnQueue

open Execution LinkedQueue

inductive Place (α κ : Type) where
  | ready
  | waiting (k : κ)
  | hand (u : α)
  deriving DecidableEq, Repr

structure Rota (α κ : Type) where
  members : List α
  places : Lists (Place α κ) α
  finished : Set α
  stays : Bool
  running : Option α

/-- What one step of a rota shows. -/
inductive Happening (α κ : Type) where
  | quiet
  | enrol (ps : List α)
  | block (k : κ) (p : α)
  | take (k : κ) (u w : α)
  | wake (u w : α)
  | stay
  | finish (p : α)
  | turn (p : α)
  | idle
  deriving DecidableEq, Repr

namespace Happening

variable {α κ : Type}

def blocked [DecidableEq κ] (k : κ) : Happening α κ → Option α
  | .block k' p => if k' = k then some p else none
  | _ => none

def taken [DecidableEq κ] (k : κ) : Happening α κ → Option α
  | .take k' _ w => if k' = k then some w else none
  | _ => none

def turned : Happening α κ → Option α
  | .turn p => some p
  | _ => none

end Happening

namespace Rota

variable {α κ : Type}

def empty : Rota α κ := ⟨[], ⟨fun _ => []⟩, ∅, false, none⟩

/-- The ready processes in the order in which the next turn is offered. -/
def lineup (r : Rota α κ) : List α :=
  if r.stays then r.places .ready else (r.places .ready).rotate 1

theorem lineup_perm (r : Rota α κ) : r.lineup.Perm (r.places .ready) := by
  unfold lineup
  split_ifs
  · exact .refl _
  · exact List.rotate_perm _ 1

variable [DecidableEq α] [DecidableEq κ]

/-- New processes line up; the first one of all runs. -/
def enrol (r : Rota α κ) (ps : List α) : Rota α κ :=
  { r with
    members := r.members ++ ps
    places := r.places.set .ready (r.places .ready ++ ps)
    running := r.running.or ps.head? }

/-- The first process of one place comes to the end of another. -/
def move (r : Rota α κ) (x y : Place α κ) (p : α) (l : List α) : Rota α κ :=
  { r with places := r.places.move x y p l }

/-- The process runs, at the head of the line. -/
def giveTurn (r : Rota α κ) (p : α) (l : List α) : Rota α κ :=
  { r with places := r.places.set .ready (p :: l), stays := false, running := some p }

inductive Step (r : Rota α κ) : Happening α κ → Rota α κ → Prop
  | quiet : Step r .quiet r
  | enrol {ps} : ps.Nodup → (∀ p ∈ ps, p ∉ r.members) → Step r (.enrol ps) (r.enrol ps)
  /-- The first ready process waits, whichever process runs. -/
  | block {k p l} : r.places .ready = p :: l →
      Step r (.block k p) (r.move .ready (.waiting k) p l)
  | take {k u w l} : r.running = some u → r.places (.hand u) = [] →
      r.places (.waiting k) = w :: l → Step r (.take k u w) (r.move (.waiting k) (.hand u) w l)
  | wake {u w} : r.running = some u → r.places (.hand u) = [w] →
      Step r (.wake u w) (r.move (.hand u) .ready w [])
  | stay : r.running ≠ none → Step r .stay { r with stays := true }
  | finish {p} : r.running = some p →
      Step r (.finish p) { r with finished := insert p r.finished }
  /-- The processes that the turn passes over go to the end of the line. -/
  | turn {dead p rest} : r.lineup = dead ++ p :: rest → (∀ q ∈ dead, q ∈ r.finished) →
      p ∉ r.finished → Step r (.turn p) (r.giveTurn p (rest ++ dead))
  | idle : r.places .ready = [] → r.stays = true → Step r .idle { r with stays := false }

section Places

variable {r r' r₀ : Rota α κ} {e : Happening α κ} {es : List (Happening α κ)} {p : α}

theorem enrol_nil (r : Rota α κ) : r.enrol [] = r := by
  simp [enrol]

theorem enrol_enrol (r : Rota α κ) (ps qs : List α) :
    (r.enrol ps).enrol qs = r.enrol (ps ++ qs) := by
  unfold enrol
  simp only [Lists.set_self, Lists.set_set, List.append_assoc, Option.or_assoc, List.head?_append]

/-- Every process is in one place, and nobody else is in any. -/
structure Sound (r : Rota α κ) : Prop where
  distinct : r.places.Distinct
  known : ∀ p, p ∈ r.members ↔ ∃ x, p ∈ r.places x

omit [DecidableEq α] [DecidableEq κ] in
theorem Sound.empty : Sound (Rota.empty : Rota α κ) where
  distinct := ⟨fun _ => .nil, fun _ _ _ h => absurd h List.not_mem_nil⟩
  known p := by simp [Rota.empty]

theorem Sound.move (h : Sound r) {x : Place α κ} {w : α} {l : List α}
    (hx : r.places x = w :: l) (y : Place α κ) : Sound (r.move x y w l) where
  distinct := h.distinct.move hx y
  known p := by
    refine (h.known p).trans ⟨fun ⟨z, hz⟩ => ?_, fun ⟨z, hz⟩ => ?_⟩
    · by_cases hp : p = w
      · exact ⟨y, (h.distinct.mem_move hx).mpr (Or.inr ⟨rfl, hp⟩)⟩
      · exact ⟨z, (h.distinct.mem_move hx).mpr (Or.inl ⟨hz, hp⟩)⟩
    · rcases (h.distinct.mem_move hx).mp hz with ⟨hz, -⟩ | ⟨-, rfl⟩
      · exact ⟨z, hz⟩
      · exact ⟨x, hx ▸ List.mem_cons_self⟩

theorem Sound.enrol {ps : List α} (h : Sound r) (hps : ps.Nodup) (hnew : ∀ p ∈ ps, p ∉ r.members) :
    Sound (r.enrol ps) where
  distinct := by
    refine h.distinct.set (List.nodup_append.mpr ⟨h.distinct.nodup _, hps, ?_⟩) ?_
    · rintro p hp q hq rfl
      exact hnew p hq ((h.known p).mpr ⟨_, hp⟩)
    · intro p hp x hx
      rcases List.mem_append.mp hp with hp | hp
      · exact h.distinct.apart _ _ p hx hp
      · exact absurd ((h.known p).mpr ⟨x, hx⟩) (hnew p hp)
  known p := by
    change p ∈ r.members ++ ps ↔ ∃ x, p ∈ (r.places.set .ready (r.places .ready ++ ps)) x
    rw [List.mem_append, h.known]
    constructor
    · rintro (⟨x, hx⟩ | hp)
      · by_cases hready : x = .ready
        · exact ⟨.ready, by simp [← hready, hx]⟩
        · exact ⟨x, by rwa [Lists.set_of_ne hready]⟩
      · exact ⟨.ready, by simp [hp]⟩
    · rintro ⟨x, hx⟩
      by_cases hready : x = .ready
      · subst hready
        rw [Lists.set_self] at hx
        exact (List.mem_append.mp hx).imp_left fun hx => ⟨_, hx⟩
      · rw [Lists.set_of_ne hready] at hx
        exact Or.inl ⟨x, hx⟩

theorem Sound.giveTurn {dead rest : List α} (h : Sound r) (hl : r.lineup = dead ++ p :: rest) :
    Sound (r.giveTurn p (rest ++ dead)) := by
  have hperm : ∀ x, ((r.giveTurn p (rest ++ dead)).places x).Perm (r.places x) := by
    intro x
    by_cases hx : x = .ready
    · subst hx
      have hturn : (p :: (rest ++ dead)).Perm (r.places .ready) := by
        refine List.Perm.trans ?_ (hl ▸ lineup_perm r)
        rw [← List.cons_append]
        exact List.perm_append_comm
      simpa [Rota.giveTurn] using hturn
    · rw [show (r.giveTurn p (rest ++ dead)).places x = r.places x from Lists.set_of_ne hx]
  refine ⟨h.distinct.of_perm hperm, fun q => (h.known q).trans ?_⟩
  exact exists_congr fun x => (hperm x).mem_iff.symm

theorem Sound.step (h : Sound r) (hs : Step r e r') : Sound r' := by
  cases hs with
  | quiet => exact h
  | enrol hps hnew => exact h.enrol hps hnew
  | block hready => exact h.move hready _
  | take _ _ hwait => exact h.move hwait _
  | wake _ hhand => exact h.move hhand _
  | stay => exact ⟨h.distinct, h.known⟩
  | finish => exact ⟨h.distinct, h.known⟩
  | turn hl => exact h.giveTurn hl
  | idle => exact ⟨h.distinct, h.known⟩

/-- No process is ever lost or in two places. -/
theorem Sound.run (h : Sound r₀) (hrun : Run Step r₀ es r) : Sound r :=
  hrun.invariant (I := fun _ r => Sound r) h fun _ _ _ _ => Sound.step

end Places

section Waiting

variable {r r' r₀ : Rota α κ} {e : Happening α κ} {es : List (Happening α κ)}

theorem Step.waiting (hs : Step r e r') (k : κ) :
    r.places (.waiting k) ++ (e.blocked k).toList =
      (e.taken k).toList ++ r'.places (.waiting k) := by
  cases hs with
  | quiet => exact List.append_nil _
  | @enrol ps =>
    have hsame : (r.enrol ps).places (.waiting k) = r.places (.waiting k) :=
      Lists.set_of_ne (by simp)
    exact (List.append_nil _).trans hsame.symm
  | @block k' p l =>
    by_cases hk : k' = k
    · subst hk
      simp [Happening.blocked, Happening.taken, Rota.move, Lists.move_target]
    · simp [Happening.blocked, Happening.taken, Rota.move, hk, Lists.move_of_ne, Ne.symm hk]
  | @take k' u w l _ _ hwait =>
    by_cases hk : k' = k
    · subst hk
      simp [Happening.blocked, Happening.taken, Rota.move, Lists.move_source, hwait]
    · simp [Happening.blocked, Happening.taken, Rota.move, hk, Lists.move_of_ne, Ne.symm hk]
  | @wake u w =>
    have hsame : (r.move (.hand u) .ready w []).places (.waiting k) = r.places (.waiting k) :=
      Lists.move_of_ne (by simp) (by simp)
    exact (List.append_nil _).trans hsame.symm
  | stay => exact List.append_nil _
  | finish => exact List.append_nil _
  | @turn dead p rest =>
    have hsame : (r.giveTurn p (rest ++ dead)).places (.waiting k) = r.places (.waiting k) :=
      Lists.set_of_ne (by simp)
    exact (List.append_nil _).trans hsame.symm
  | idle => exact List.append_nil _

end Waiting

section Turns

variable {r r' r₀ : Rota α κ} {e : Happening α κ} {es : List (Happening α κ)} {p : α}

/-- A turn that finds the process at the head of the line and does not let it stay. -/
def SendsBack (p : α) (r : Rota α κ) (e : Happening α κ) : Prop :=
  e.turned ≠ none ∧ r.stays = false ∧ (r.places .ready).head? = some p

theorem Step.finished (hs : Step r e r') : r.finished ⊆ r'.finished := by
  cases hs with
  | finish => exact Set.subset_insert _ _
  | _ => exact subset_rfl

omit [DecidableEq α] [DecidableEq κ] in
theorem lineup_get {i : ℕ} (hi : (r.places .ready)[i]? = some p)
    (hback : r.stays = false → (r.places .ready).head? ≠ some p) :
    ∃ n, r.lineup[n]? = some p ∧ n + 1 = i + r.stays.toNat := by
  unfold lineup
  cases hstays : r.stays with
  | true => exact ⟨i, by simpa using hi, rfl⟩
  | false =>
    have hhead := hback hstays
    cases hq : r.places .ready with
    | nil => simp [hq] at hi
    | cons a l =>
      rw [hq] at hi hhead
      cases i with
      | zero => exact absurd (by simpa using hi) hhead
      | succ i =>
        refine ⟨i, ?_, rfl⟩
        obtain ⟨hlt, hget⟩ := List.getElem?_eq_some_iff.mp hi
        have hlt' : i < l.length := by simpa using hlt
        simpa [List.getElem?_append_left hlt'] using hi

theorem Step.comes_forward {q : α} {i : ℕ} (hs : Step r (.turn q) r')
    (hi : (r.places .ready)[i]? = some p) (hp : p ∉ r.finished) (hne : q ≠ p)
    (hback : ¬ SendsBack p r (.turn q)) :
    ∃ j, (r'.places .ready)[j]? = some p ∧ j + r'.stays.toNat + 1 ≤ i + r.stays.toNat := by
  obtain ⟨n, hn, hplace⟩ := lineup_get hi fun hstays hhead =>
    hback ⟨by simp [Happening.turned], hstays, hhead⟩
  cases hs with
  | @turn dead _ rest hl hdead hlive =>
    rw [hl] at hn
    -- the process is not among the dead and not the one that runs
    have hdead' : dead.length ≤ n := by
      by_contra hlt
      rw [List.getElem?_append_left (by omega)] at hn
      exact hp (hdead p (List.mem_of_getElem? hn))
    rw [List.getElem?_append_right hdead'] at hn
    cases hm : n - dead.length with
    | zero =>
      rw [hm] at hn
      exact absurd (Option.some.inj hn) hne
    | succ m =>
      rw [hm] at hn
      refine ⟨m + 1, ?_, ?_⟩
      · obtain ⟨hlt, -⟩ := List.getElem?_eq_some_iff.mp hn
        have hlt' : m < rest.length := by simpa using hlt
        simpa [Rota.giveTurn, List.getElem?_append_left hlt'] using hn
      · change m + 1 + 0 + 1 ≤ _
        omega

/-- A process stays where it is in line while others come and go, and an unlock ahead of it
costs it one place. -/
theorem Step.place (hs : Step r e r') {i : ℕ} (hi : (r.places .ready)[i]? = some p)
    (hp : p ∉ r.finished) (hblock : ∀ k, e ≠ .block k p) (hturn : e ≠ .turn p)
    (hback : ¬ SendsBack p r e) : ∃ j, (r'.places .ready)[j]? = some p ∧
      [e].countP (·.turned.isSome) + j + r'.stays.toNat ≤
        i + r.stays.toNat + [e].count .stay := by
  have hlater : ∀ ps, (r.places .ready ++ ps)[i]? = some p := fun ps => by
    obtain ⟨hlt, -⟩ := List.getElem?_eq_some_iff.mp hi
    rw [List.getElem?_append_left hlt, hi]
  cases hs with
  | quiet => exact ⟨i, hi, by simp [Happening.turned]⟩
  | @enrol ps =>
    refine ⟨i, ?_, by simp [Happening.turned, Rota.enrol]⟩
    simpa [Rota.enrol] using hlater ps
  | @block k q l hready =>
    cases i with
    | zero =>
      rw [hready] at hi
      exact absurd (by rw [Option.some.inj hi]) (hblock k)
    | succ i =>
      refine ⟨i, ?_, by simp [Happening.turned, Rota.move]⟩
      rw [hready] at hi
      simpa [Rota.move, Lists.move_source] using hi
  | @take k u w l =>
    refine ⟨i, ?_, by simp [Happening.turned, Rota.move]⟩
    simpa [Rota.move, Lists.move_of_ne] using hi
  | @wake u w =>
    refine ⟨i, ?_, by simp [Happening.turned, Rota.move]⟩
    simpa [Rota.move, Lists.move_target] using hlater [w]
  | stay => exact ⟨i, hi, by cases r.stays <;> simp [Happening.turned] ⟩
  | finish => exact ⟨i, hi, by simp [Happening.turned]⟩
  | @turn dead q rest hl hdead hlive =>
    have hne : q ≠ p := fun heq => hturn (by rw [heq])
    obtain ⟨j, hj, hle⟩ := Step.comes_forward (.turn hl hdead hlive) hi hp hne hback
    exact ⟨j, hj, by simp [Happening.turned]; omega⟩
  | idle hready => exact ⟨i, hi, by simp [Happening.turned]⟩

/-- As long as a process neither waits nor finishes and is not sent back from the head of the
line, others get no more turns than were ahead of it, and one for each time that the head was
to stay. -/
theorem turns_le {i : ℕ} (h : Run (Guarded (fun r e => ¬ SendsBack p r e) Step) r₀ es r)
    (hi : (r₀.places .ready)[i]? = some p) (hp : p ∉ r.finished)
    (hblock : ∀ k, .block k p ∉ es) (hturn : .turn p ∉ es) :
    ∃ j, (r.places .ready)[j]? = some p ∧ es.countP (·.turned.isSome) + j + r.stays.toNat ≤
      i + r₀.stays.toNat + es.count .stay := by
  induction h with
  | nil => exact ⟨i, hi, by simp⟩
  | @snoc es r e r' _ hs ih =>
    obtain ⟨hback, hs⟩ := hs
    have hp' : p ∉ r.finished := fun hmem => hp (hs.finished hmem)
    obtain ⟨j, hj, hle⟩ := ih hp' (fun k hmem => hblock k (List.mem_append_left _ hmem))
      fun hmem => hturn (List.mem_append_left _ hmem)
    obtain ⟨n, hn, hle'⟩ := hs.place hj hp' (fun k heq => hblock k (by simp [heq]))
      (fun heq => hturn (by simp [heq])) hback
    refine ⟨n, hn, ?_⟩
    rw [List.countP_append, List.count_append]
    omega

end Turns

end Rota

end VirtualMemorySimulation.TurnQueue
