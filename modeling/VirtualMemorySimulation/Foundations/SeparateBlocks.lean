import Mathlib.Logic.Function.Basic
import VirtualMemorySimulation.Foundations.Execution

/-!
# Separate blocks in one memory

An allocator hands out blocks of one flat memory, and its clients write into the
blocks they got. What the clients want to see are blocks that have nothing to do
with each other: each cell holds what was last written to it. `Contents` is that
view, by the number of the block and the cell in it, and `Shows` says that a
memory presents it.

An allocator whose blocks are apart, and whose calls leave the handed out cells
alone, presents it after every run. Its own data may lie in the same memory.
-/

namespace VirtualMemorySimulation.SeparateBlocks

open Execution

variable {σ ℓ β : Type}

/-- The `size` cells from `address` on. -/
structure Block where
  address : ℤ
  size : ℤ
  deriving DecidableEq, Repr

namespace Block

def Has (b : Block) (a : ℤ) : Prop := b.address ≤ a ∧ a < b.address + b.size

instance (b : Block) (a : ℤ) : Decidable (b.Has a) := inferInstanceAs (Decidable (_ ∧ _))

def Apart (b c : Block) : Prop := ∀ a, b.Has a → ¬ c.Has a

theorem Apart.symm {b c : Block} (h : b.Apart c) : c.Apart b := fun a hc hb => h a hb hc

theorem has_cell {b : Block} {i : ℤ} (h : 0 ≤ i ∧ i < b.size) : b.Has (b.address + i) := by
  unfold Has
  omega

end Block

theorem eq_of_shared {blocks : List Block} (h : blocks.Pairwise Block.Apart) {j k : ℕ} {b c : Block}
    (hb : blocks[j]? = some b) (hc : blocks[k]? = some c) {a : ℤ} (hba : b.Has a) (hca : c.Has a) :
    j = k := by
  obtain ⟨hj, rfl⟩ := List.getElem?_eq_some_iff.mp hb
  obtain ⟨hk, rfl⟩ := List.getElem?_eq_some_iff.mp hc
  rcases lt_trichotomy j k with hlt | heq | hlt
  · exact absurd hca (List.pairwise_iff_getElem.mp h j k hj hk hlt a hba)
  · exact heq
  · exact absurd hba (List.pairwise_iff_getElem.mp h k j hk hj hlt a hca)

/-- What was last written to the cell `i` of the block `k`. -/
abbrev Contents (β : Type) := ℕ → ℤ → Option β

namespace Contents

def empty : Contents β := fun _ _ => none

def write (c : Contents β) (k : ℕ) (i : ℤ) (v : β) : Contents β :=
  Function.update c k (Function.update (c k) i (some v))

variable {c : Contents β} {j k : ℕ} {i i' : ℤ} {v : β}

@[simp] theorem write_same : c.write k i v k i = some v := by simp [write]

theorem write_other (h : j ≠ k ∨ i' ≠ i) : c.write k i v j i' = c j i' := by
  unfold write
  by_cases hk : j = k
  · subst hk
    rw [Function.update_self, Function.update_of_ne (h.resolve_left (by simp))]
  · rw [Function.update_of_ne hk]

end Contents

/-- The memory holds the contents, each cell at its place in its block. -/
def Shows (cells : ℤ → β) (blocks : List Block) (c : Contents β) : Prop :=
  ∀ k i v, c k i = some v →
    ∃ b, blocks[k]? = some b ∧ (0 ≤ i ∧ i < b.size) ∧ cells (b.address + i) = v

theorem Shows.empty {cells : ℤ → β} {blocks : List Block} : Shows cells blocks .empty :=
  fun _ _ _ h => by cases h

/-- A write into one block is seen there and in no other block. -/
theorem Shows.write {cells : ℤ → β} {blocks : List Block} {c : Contents β} (h : Shows cells blocks c)
    (hapart : blocks.Pairwise Block.Apart) {k : ℕ} {b : Block} (hb : blocks[k]? = some b) {i : ℤ}
    (hi : 0 ≤ i ∧ i < b.size) (v : β) :
    Shows (Function.update cells (b.address + i) v) blocks (c.write k i v) := by
  intro j i' w hw
  by_cases hsame : j = k ∧ i' = i
  · obtain ⟨rfl, rfl⟩ := hsame
    rw [Contents.write_same] at hw
    obtain rfl := Option.some.inj hw
    exact ⟨b, hb, hi, Function.update_self ..⟩
  · rw [Contents.write_other (by tauto)] at hw
    obtain ⟨d, hd, hi', hcell⟩ := h j i' w hw
    refine ⟨d, hd, hi', ?_⟩
    rw [Function.update_of_ne, hcell]
    intro heq
    have hshared : b.Has (d.address + i') := heq ▸ Block.has_cell hi
    obtain rfl := eq_of_shared hapart hd hb (Block.has_cell hi') hshared
    obtain rfl := Option.some.inj (hd.symm.trans hb)
    exact hsame ⟨rfl, by omega⟩

theorem Shows.extend {cells cells' : ℤ → β} {blocks blocks' : List Block} {c : Contents β}
    (h : Shows cells blocks c) (hblocks : blocks <+: blocks')
    (hcells : ∀ b ∈ blocks, ∀ a, b.Has a → cells' a = cells a) : Shows cells' blocks' c := by
  intro k i v hv
  obtain ⟨b, hb, hi, hcell⟩ := h k i v hv
  refine ⟨b, ?_, hi, ?_⟩
  · obtain ⟨more, rfl⟩ := hblocks
    obtain ⟨hk, rfl⟩ := List.getElem?_eq_some_iff.mp hb
    rw [List.getElem?_append_left hk]
    exact hb
  · rw [hcells b (List.mem_of_getElem? hb) _ (Block.has_cell hi), hcell]

/-- What clients do: call the allocator, or write a value to a cell of a block. -/
inductive Action (ℓ β : Type) where
  | call (l : ℓ)
  | write (k : ℕ) (i : ℤ) (v : β)
  deriving DecidableEq, Repr

/-- What the actions of a run wrote. -/
def contents (actions : List (Action ℓ β)) : Contents β :=
  actions.foldl (fun c action => match action with
    | .call _ => c
    | .write k i v => c.write k i v) .empty

@[simp] theorem contents_call (actions : List (Action ℓ β)) (l : ℓ) :
    contents (actions ++ [.call l]) = contents actions := by simp [contents]

@[simp] theorem contents_write (actions : List (Action ℓ β)) (k : ℕ) (i : ℤ) (v : β) :
    contents (actions ++ [.write k i v]) = (contents actions).write k i v := by simp [contents]

/-- An allocator: its memory, the blocks it has handed out, and what its calls do. -/
structure Allocator (σ ℓ β : Type) where
  cells : σ → ℤ → β
  blocks : σ → List Block
  poke : σ → ℤ → β → σ
  call : σ → ℓ → σ → Prop

namespace Allocator

variable (T : Allocator σ ℓ β)

/-- A step of the allocator with its clients, who write only into blocks they got. -/
inductive Step : σ → Action ℓ β → σ → Prop
  | call {s s' : σ} {l : ℓ} : T.call s l s' → Step s (.call l) s'
  | write {s : σ} {k : ℕ} {b : Block} {i : ℤ} {v : β} : (T.blocks s)[k]? = some b →
      0 ≤ i ∧ i < b.size → Step s (.write k i v) (T.poke s (b.address + i) v)

/-- An invariant under which the blocks are apart and the calls leave their cells alone. -/
structure Keeps (I : σ → Prop) : Prop where
  apart : ∀ s, I s → (T.blocks s).Pairwise Block.Apart
  cells_poke : ∀ s a v, T.cells (T.poke s a v) = Function.update (T.cells s) a v
  blocks_poke : ∀ s a v, T.blocks (T.poke s a v) = T.blocks s
  poke : ∀ s b a v, I s → b ∈ T.blocks s → b.Has a → I (T.poke s a v)
  call : ∀ s l s', I s → T.call s l s' → I s' ∧ T.blocks s <+: T.blocks s' ∧
    ∀ b ∈ T.blocks s, ∀ a, b.Has a → T.cells s' a = T.cells s a

variable {T} {I : σ → Prop} {s₀ s : σ} {actions : List (Action ℓ β)}

theorem Keeps.step {s' : σ} {action : Action ℓ β} (h : T.Keeps I) (hI : I s)
    (hshows : Shows (T.cells s) (T.blocks s) (contents actions)) (hstep : T.Step s action s') :
    I s' ∧ Shows (T.cells s') (T.blocks s') (contents (actions ++ [action])) := by
  cases hstep with
  | call hcall =>
    obtain ⟨hI', hblocks, hcells⟩ := h.call _ _ _ hI hcall
    rw [contents_call]
    exact ⟨hI', hshows.extend hblocks hcells⟩
  | write hb hi =>
    refine ⟨h.poke _ _ _ _ hI (List.mem_of_getElem? hb) (Block.has_cell hi), ?_⟩
    rw [contents_write, h.cells_poke, h.blocks_poke]
    exact hshows.write (h.apart _ hI) hb hi _

/-- After every run each block shows what was last written to it. -/
theorem Keeps.run (h : T.Keeps I) (h0 : I s₀) (hrun : Run T.Step s₀ actions s) :
    I s ∧ Shows (T.cells s) (T.blocks s) (contents actions) :=
  hrun.invariant (I := fun actions s => I s ∧ Shows (T.cells s) (T.blocks s) (contents actions))
    ⟨h0, Shows.empty⟩ fun _ _ _ _ hI hstep => h.step hI.1 hI.2 hstep

end Allocator

end VirtualMemorySimulation.SeparateBlocks
