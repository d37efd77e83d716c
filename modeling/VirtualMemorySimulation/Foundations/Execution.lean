import Mathlib.Logic.Relation
import Mathlib.Tactic

/-!
# Bounded loops and labelled runs

A loop of a C program becomes a function of a fuel argument, and a program that
never leaves the loop becomes one that exhausts every fuel. `Settles` says that
all sufficiently large fuels give one and the same result and that the smaller
ones give nothing else, so a settled program is deterministic and terminates.

`Run` records the labels of a finite execution. Invariants, guarded runs and
simulations between two systems are proved once for every labelled system.
-/

namespace VirtualMemorySimulation.Execution

/-- Why an execution stops without a result. -/
inductive Stop where
  | outOfFuel
  | outOfBounds
  | nullDereference
  | exit
  | notEnabled
  deriving DecidableEq, Repr

section Fuel

variable {α β : Type}

@[simp] theorem ok_bind (v : α) (f : α → Except Stop β) : (Except.ok v >>= f) = f v := rfl

@[simp] theorem error_bind (e : Stop) (f : α → Except Stop β) :
    ((Except.error e : Except Stop α) >>= f) = .error e := rfl

/-- Every fuel gives the result `r` or is exhausted, and all large fuels give `r`. -/
def Settles (f : ℕ → Except Stop α) (r : Except Stop α) : Prop :=
  (∀ n, f n = r ∨ f n = .error .outOfFuel) ∧ ∃ N, ∀ n, N ≤ n → f n = r

theorem Settles.const (r : Except Stop α) : Settles (fun _ => r) r :=
  ⟨fun _ => Or.inl rfl, 0, fun _ _ => rfl⟩

theorem Settles.succ {f g : ℕ → Except Stop α} {r : Except Stop α}
    (h0 : f 0 = .error .outOfFuel) (hs : ∀ n, f (n + 1) = g n) (hg : Settles g r) :
    Settles f r := by
  obtain ⟨hall, N, hN⟩ := hg
  constructor
  · intro n
    cases n with
    | zero => exact Or.inr h0
    | succ n => rw [hs]; exact hall n
  · refine ⟨N + 1, fun n hn => ?_⟩
    obtain ⟨k, rfl⟩ : ∃ k, n = k + 1 := ⟨n - 1, by omega⟩
    rw [hs]
    exact hN k (by omega)

theorem Settles.bind {f : ℕ → Except Stop α} {g : α → ℕ → Except Stop β} {v : α}
    {r : Except Stop β} (hf : Settles f (.ok v)) (hg : Settles (g v) r) :
    Settles (fun n => f n >>= fun x => g x n) r := by
  obtain ⟨hfall, N, hN⟩ := hf
  obtain ⟨hgall, M, hM⟩ := hg
  constructor
  · intro n
    rcases hfall n with h | h
    · simpa only [h, ok_bind] using hgall n
    · exact Or.inr (by simp only [h, error_bind])
  · refine ⟨max N M, fun n hn => ?_⟩
    simp only [hN n (le_trans (le_max_left _ _) hn), ok_bind]
    exact hM n (le_trans (le_max_right _ _) hn)

theorem Settles.bind_error {f : ℕ → Except Stop α} {g : α → ℕ → Except Stop β} {e : Stop}
    (hf : Settles f (.error e)) : Settles (fun n => f n >>= fun x => g x n) (.error e) := by
  obtain ⟨hall, N, hN⟩ := hf
  constructor
  · intro n
    rcases hall n with h | h
    · exact Or.inl (by simp only [h, error_bind])
    · exact Or.inr (by simp only [h, error_bind])
  · refine ⟨N, fun n hn => ?_⟩
    simp only [hN n hn, error_bind]

theorem Settles.congr {f g : ℕ → Except Stop α} {r : Except Stop α} (h : ∀ n, f n = g n)
    (hg : Settles g r) : Settles f r := by
  rwa [show f = g from funext h]

theorem Settles.map {f : ℕ → Except Stop α} {v : α} (h : Settles f (.ok v)) (g : α → β) :
    Settles (fun n => (f n).map g) (.ok (g v)) := by
  obtain ⟨hall, N, hN⟩ := h
  constructor
  · intro n
    rcases hall n with h | h
    · exact Or.inl (congrArg (Except.map g) h)
    · exact Or.inr (congrArg (Except.map g) h)
  · exact ⟨N, fun n hn => congrArg (Except.map g) (hN n hn)⟩

theorem Settles.eq_of_ok {f : ℕ → Except Stop α} {r : Except Stop α} {n : ℕ} {v : α}
    (h : Settles f r) (hn : f n = .ok v) : r = .ok v := by
  rcases h.1 n with h | h
  · exact h.symm.trans hn
  · rw [h] at hn
    cases hn

theorem Settles.unique {f : ℕ → Except Stop α} {r r' : Except Stop α} (h : Settles f r)
    (h' : Settles f r') : r = r' := by
  obtain ⟨_, N, hN⟩ := h
  obtain ⟨_, M, hM⟩ := h'
  rw [← hN _ (le_max_left N M), hM _ (le_max_right N M)]

theorem Settles.exists_ok {f : ℕ → Except Stop α} {v : α} (h : Settles f (.ok v)) :
    ∃ n, f n = .ok v := by
  obtain ⟨_, N, hN⟩ := h
  exact ⟨N, hN N le_rfl⟩

theorem Settles.not_ok {f : ℕ → Except Stop α} {e : Stop} (h : Settles f (.error e))
    (n : ℕ) (v : α) : f n ≠ .ok v := by
  intro hn
  cases h.eq_of_ok hn

/-- What a program gives with some fuel, it gives with more. -/
def Extends (x y : Except Stop α) : Prop := x = .error .outOfFuel ∨ y = x

theorem Extends.refl (x : Except Stop α) : Extends x x := Or.inr rfl

theorem Extends.bind {x y : Except Stop α} {f g : α → Except Stop β} (h : Extends x y)
    (hfg : ∀ v, Extends (f v) (g v)) : Extends (x >>= f) (y >>= g) := by
  rcases h with rfl | rfl
  · exact Or.inl rfl
  · cases y with
    | error e => exact Or.inr rfl
    | ok v => exact hfg v

/-- A program that more fuel only extends settles on each result that it gives. -/
theorem Settles.of_extends {f : ℕ → Except Stop α} (h : ∀ n, Extends (f n) (f (n + 1))) {n : ℕ}
    {v : α} (hn : f n = .ok v) : Settles f (.ok v) := by
  have hkeeps : ∀ k n, Extends (f n) (f (n + k)) := fun k => by
    induction k with
    | zero => exact fun n => .refl _
    | succ k ih =>
      intro n
      rcases ih n with hout | hsame
      · exact Or.inl hout
      · rcases h (n + k) with hout | hnext
        · exact Or.inl (hsame ▸ hout)
        · exact Or.inr (hnext.trans hsame)
  have hlater : ∀ k, n ≤ k → f k = .ok v := fun k hk => by
    obtain ⟨d, rfl⟩ := Nat.exists_eq_add_of_le hk
    rcases hkeeps d n with hout | hsame
    · cases hn.symm.trans hout
    · exact hsame.trans hn
  refine ⟨fun k => ?_, n, hlater⟩
  rcases le_total n k with hk | hk
  · exact Or.inl (hlater k hk)
  · obtain ⟨d, rfl⟩ := Nat.exists_eq_add_of_le hk
    exact (hkeeps d k).symm.imp (fun hsame => hsame.symm.trans hn) id

end Fuel

section Results

variable {α β α' β' : Type}

theorem bind_eq_ok {x : Except Stop α} {f : α → Except Stop β} {b : β} :
    x >>= f = .ok b ↔ ∃ a, x = .ok a ∧ f a = .ok b := by
  cases x with
  | error e => simp
  | ok a => simp

theorem map_eq_ok {x : Except Stop α} {f : α → β} {b : β} :
    x.map f = .ok b ↔ ∃ a, x = .ok a ∧ f a = b := by
  cases x with
  | error e => simp [Except.map]
  | ok a => simp [Except.map]

/-- Two results match: related values, or the same reason to stop. -/
inductive Matches (R : α → β → Prop) : Except Stop α → Except Stop β → Prop
  | ok {a : α} {b : β} : R a b → Matches R (.ok a) (.ok b)
  | error {e : Stop} : Matches R (.error e) (.error e)

theorem Matches.bind_of_ok {R : α → β → Prop} {S : α' → β' → Prop} {x : Except Stop α}
    {y : Except Stop β} {f : α → Except Stop α'} {g : β → Except Stop β'} (h : Matches R x y)
    (hfg : ∀ a b, y = .ok b → R a b → Matches S (f a) (g b)) : Matches S (x >>= f) (y >>= g) := by
  cases h with
  | ok hab => exact hfg _ _ rfl hab
  | error => exact .error

theorem Matches.bind {R : α → β → Prop} {S : α' → β' → Prop} {x : Except Stop α}
    {y : Except Stop β} {f : α → Except Stop α'} {g : β → Except Stop β'} (h : Matches R x y)
    (hfg : ∀ a b, R a b → Matches S (f a) (g b)) : Matches S (x >>= f) (y >>= g) :=
  h.bind_of_ok fun a b _ => hfg a b

theorem Matches.map {R : α → β → Prop} {S : α' → β' → Prop} {x : Except Stop α}
    {y : Except Stop β} {f : α → α'} {g : β → β'} (h : Matches R x y)
    (hfg : ∀ a b, R a b → S (f a) (g b)) : Matches S (x.map f) (y.map g) := by
  cases h with
  | ok hab => exact .ok (hfg _ _ hab)
  | error => exact .error

theorem Matches.of_ok {R : α → β → Prop} {x : Except Stop α} {y : Except Stop β} {a : α}
    (h : Matches R x y) (hx : x = .ok a) : ∃ b, y = .ok b ∧ R a b := by
  subst hx
  cases h with
  | ok hab => exact ⟨_, rfl, hab⟩

theorem Matches.of_ok_right {R : α → β → Prop} {x : Except Stop α} {y : Except Stop β} {b : β}
    (h : Matches R x y) (hy : y = .ok b) : ∃ a, x = .ok a ∧ R a b := by
  subst hy
  cases h with
  | ok hab => exact ⟨_, rfl, hab⟩

theorem Matches.error_iff {R : α → β → Prop} {x : Except Stop α} {y : Except Stop β} {e : Stop}
    (h : Matches R x y) : x = .error e ↔ y = .error e := by
  cases h with
  | ok _ => simp
  | error => simp

end Results

section Runs

variable {σ τ ℓ : Type*}

/-- Finite executions from `s₀`, with their labels in order. -/
inductive Run (step : σ → ℓ → σ → Prop) (s₀ : σ) : List ℓ → σ → Prop
  | nil : Run step s₀ [] s₀
  | snoc {ls s l s'} : Run step s₀ ls s → step s l s' → Run step s₀ (ls ++ [l]) s'

def Guarded (cond : σ → ℓ → Prop) (step : σ → ℓ → σ → Prop) (s : σ) (l : ℓ) (s' : σ) : Prop :=
  cond s l ∧ step s l s'

variable {step : σ → ℓ → σ → Prop} {s₀ : σ}

/-- A property of states and histories that each step keeps holds after every run. -/
theorem Run.invariant {I : List ℓ → σ → Prop} (h0 : I [] s₀)
    (hs : ∀ ls s l s', I ls s → step s l s' → I (ls ++ [l]) s') {ls : List ℓ} {s : σ}
    (h : Run step s₀ ls s) : I ls s := by
  induction h with
  | nil => exact h0
  | snoc _ hstep ih => exact hs _ _ _ _ ih hstep

theorem Run.mono {step' : σ → ℓ → σ → Prop} (hs : ∀ s l s', step s l s' → step' s l s')
    {ls : List ℓ} {s : σ} (h : Run step s₀ ls s) : Run step' s₀ ls s := by
  induction h with
  | nil => exact .nil
  | snoc _ hstep ih => exact ih.snoc (hs _ _ _ hstep)

theorem Run.guard {cond : σ → ℓ → Prop} {p : ℓ → Prop} {ls : List ℓ} {s : σ}
    (h : Run (Guarded cond step) s₀ ls s) (hp : ∀ l ∈ ls, p l) :
    Run (Guarded (fun s l => cond s l ∧ p l) step) s₀ ls s := by
  induction h with
  | nil => exact .nil
  | snoc _ hstep ih =>
    refine (ih fun l hl => hp l (List.mem_append_left _ hl)).snoc ⟨⟨hstep.1, ?_⟩, hstep.2⟩
    exact hp _ (by simp)

theorem Run.append {ls ks : List ℓ} {s t : σ} (h : Run step s₀ ls s) (hk : Run step s ks t) :
    Run step s₀ (ls ++ ks) t := by
  induction hk with
  | nil => simpa using h
  | snoc _ hstep ih =>
    rw [← List.append_assoc]
    exact ih.snoc hstep

theorem Run.single {l : ℓ} {s : σ} (h : step s₀ l s) : Run step s₀ [l] s :=
  show Run step s₀ ([] ++ [l]) s from .snoc .nil h

theorem Run.eq_of_nil {s : σ} (h : Run step s₀ [] s) : s = s₀ := by
  generalize hls : ([] : List ℓ) = ls at h
  cases h with
  | nil => rfl
  | snoc _ _ => simp at hls

theorem Run.uncons {l : ℓ} {ls : List ℓ} {s : σ} (h : Run step s₀ (l :: ls) s) :
    ∃ s₁, step s₀ l s₁ ∧ Run step s₁ ls s := by
  generalize hks : l :: ls = ks at h
  induction h generalizing ls with
  | nil => cases hks
  | @snoc ks s k s' hrun hstep ih =>
    cases ks with
    | nil =>
      obtain ⟨rfl, rfl⟩ := List.cons.inj hks
      obtain rfl := hrun.eq_of_nil
      exact ⟨s', hstep, .nil⟩
    | cons l' ks =>
      obtain ⟨rfl, rfl⟩ := List.cons.inj hks
      obtain ⟨s₁, hfirst, hrest⟩ := ih rfl
      exact ⟨s₁, hfirst, hrest.snoc hstep⟩

def runAll {σ ℓ : Type} (exec : ℓ → σ → Except Stop σ) : List ℓ → σ → Except Stop σ
  | [], s => .ok s
  | l :: ls, s => exec l s >>= runAll exec ls

theorem runAll_append {σ ℓ : Type} (exec : ℓ → σ → Except Stop σ) (ls ks : List ℓ) (s : σ) :
    runAll exec (ls ++ ks) s = runAll exec ls s >>= runAll exec ks := by
  induction ls generalizing s with
  | nil => rfl
  | cons l ls ih =>
    rw [List.cons_append, runAll, runAll]
    cases exec l s with
    | error e => rfl
    | ok s₁ => exact ih s₁

theorem Matches.runAll {σ τ ℓ : Type} {R : σ → τ → Prop} {exec : ℓ → σ → Except Stop σ}
    {exec' : ℓ → τ → Except Stop τ}
    (hexec : ∀ l s t, R s t → Matches R (exec l s) (exec' l t)) (ls : List ℓ) {s : σ} {t : τ}
    (h : R s t) : Matches R (runAll exec ls s) (Execution.runAll exec' ls t) := by
  induction ls generalizing s t with
  | nil => exact .ok h
  | cons l ls ih => exact (hexec l s t h).bind fun s' t' h' => ih h'

/-- What an execution computes of the state it ends in holds at the end of a run. -/
theorem Run.of_runAll {σ ℓ β : Type} {exec : ℓ → σ → Except Stop σ} {step : σ → ℓ → σ → Prop}
    (hexec : ∀ s l s', exec l s = .ok s' → step s l s') (ls : List ℓ) (s : σ) (f : σ → β) {b : β}
    (h : (runAll exec ls s).map f = .ok b) : ∃ s', Run step s ls s' ∧ f s' = b := by
  induction ls generalizing s with
  | nil => exact ⟨s, .nil, Except.ok.inj h⟩
  | cons l ls ih =>
    cases hl : exec l s with
    | error e => simp [runAll, hl, Except.map] at h
    | ok s₁ =>
      rw [runAll, hl] at h
      obtain ⟨s', hrun, hf⟩ := ih s₁ h
      exact ⟨s', (Run.single (hexec s l s₁ hl)).append hrun, hf⟩

/-- An execution that stops where a condition fails. -/
def guardedExec {σ ℓ : Type} (cond : σ → ℓ → Prop) [∀ s l, Decidable (cond s l)]
    (exec : ℓ → σ → Except Stop σ) (l : ℓ) (s : σ) : Except Stop σ :=
  if cond s l then exec l s else .error .notEnabled

theorem guardedExec_step {σ ℓ : Type} (cond : σ → ℓ → Prop) [∀ s l, Decidable (cond s l)]
    {exec : ℓ → σ → Except Stop σ} {step : σ → ℓ → σ → Prop}
    (hexec : ∀ s l s', exec l s = .ok s' → step s l s') (s : σ) (l : ℓ) (s' : σ)
    (h : guardedExec cond exec l s = .ok s') : Guarded cond step s l s' := by
  unfold guardedExec at h
  split_ifs at h with hcond
  exact ⟨hcond, hexec s l s' h⟩

/-- A related pair of systems takes every run of the first to a run of the second. -/
theorem Run.simulation {stepT : τ → ℓ → τ → Prop} {R : σ → τ → Prop}
    (hsim : ∀ s l s' t, R s t → step s l s' → ∃ t', stepT t l t' ∧ R s' t')
    {t₀ : τ} (h0 : R s₀ t₀) {ls : List ℓ} {s : σ} (h : Run step s₀ ls s) :
    ∃ t, Run stepT t₀ ls t ∧ R s t := by
  induction h with
  | nil => exact ⟨t₀, .nil, h0⟩
  | snoc _ hstep ih =>
    obtain ⟨t, ht, hr⟩ := ih
    obtain ⟨t', hstepT, hr'⟩ := hsim _ _ _ _ hr hstep
    exact ⟨t', ht.snoc hstepT, hr'⟩

end Runs

end VirtualMemorySimulation.Execution
