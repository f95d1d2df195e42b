import Mathlib.Data.Multiset.AddSub

/-! Counted links. The nodes of a graph are leaves and inner nodes; an edge `(d, i)` is a name that
`d` has for `i`. A leaf counts the edges that lead to it. An inner node counts two for itself and
one for every inner node below it, is led to by one edge, and knows where that edge comes from. A
node with the count zero is gone and no edge touches it.

Each rule says which counts have to change when an edge is added, removed or moved. -/

namespace Vex.Lib

open Multiset

variable {ν : Type*} [DecidableEq ν]

structure LinkGraph (ν : Type*) where
  inner : ν → Bool
  links : ν → Nat
  edges : Multiset (ν × ν)
  /-- `up i d`: the inner node `i` has `d` recorded above it. -/
  up : ν → ν → Prop

namespace LinkGraph

/-- How many edges lead to `i`. -/
def refs (g : LinkGraph ν) (i : ν) : Nat := g.edges.countP fun e => e.2 = i

/-- How many edges lead from `d` to inner nodes. -/
def below (g : LinkGraph ν) (d : ν) : Nat := g.edges.countP fun e => e.1 = d ∧ g.inner e.2

structure Linked (g : LinkGraph ν) (root : ν) : Prop where
  held : ∀ {d i}, (d, i) ∈ g.edges → g.links d ≠ 0 ∧ g.links i ≠ 0
  source : ∀ {d i}, (d, i) ∈ g.edges → g.inner d
  leaf : ∀ {i}, g.inner i = false → g.links i = g.refs i
  node : ∀ {i}, g.inner i → g.links i ≠ 0 → g.links i = 2 + g.below i
  once : ∀ {i}, g.inner i → g.links i ≠ 0 → i ≠ root → g.refs i = 1
  above : ∀ {d i}, (d, i) ∈ g.edges → g.inner i → g.up i d
  root_inner : g.inner root
  root_live : g.links root ≠ 0
  root_refs : g.refs root = 0

variable {g g' : LinkGraph ν} {root d i j s : ν} {E : Multiset (ν × ν)} {up : ν → ν → Prop}

theorem refs_pos (h : (d, i) ∈ g.edges) : 0 < g.refs i := countP_pos.2 ⟨_, h, rfl⟩

theorem below_eq_zero (h : ∀ {j}, (d, j) ∉ g.edges) : g.below d = 0 := by
  refine Nat.eq_zero_of_not_pos fun hp => ?_
  obtain ⟨⟨e, j⟩, hm, rfl, -⟩ := countP_pos.1 hp
  exact h hm

theorem Linked.refs_eq_zero (h : g.Linked root) (hi : g.links i = 0) : g.refs i = 0 := by
  refine Nat.eq_zero_of_not_pos fun hp => ?_
  obtain ⟨⟨d, j⟩, hm, rfl⟩ := countP_pos.1 hp
  exact (h.held hm).2 hi

theorem refs_cons (h : g'.edges = (d, i) ::ₘ g.edges) (j : ν) :
    g'.refs j = g.refs j + if i = j then 1 else 0 := by
  simp [refs, h, countP_cons]

theorem below_cons (h : g'.edges = (d, i) ::ₘ g.edges) (hinn : g'.inner = g.inner) (j : ν) :
    g'.below j = g.below j + if d = j ∧ g.inner i then 1 else 0 := by
  simp [below, h, hinn, countP_cons]

section
variable (h : g.Linked root)
include h

theorem Linked.add_leaf (hi : g.inner i = false) (hd : g.links d ≠ 0) (hdi : g.inner d)
    (hinn : g'.inner = g.inner) (hup : g'.up = g.up)
    (heds : g'.edges = (d, i) ::ₘ g.edges)
    (hlks : ∀ j, g'.links j = if j = i then g.links i + 1 else g.links j) :
    g'.Linked root := by
  -- Here and below, each clause is the old one with these three equations.
  have hrf := refs_cons heds
  have hblw := below_cons heds hinn
  cases h
  constructor <;> grind -ring -linarith

/-- What a node that is gone counts as does not matter. -/
theorem Linked.set_inner (hi : g.links i = 0) (hinn : ∀ j, j ≠ i → g'.inner j = g.inner j)
    (hup : ∀ {j e}, j ≠ i → g.up j e → g'.up j e)
    (heds : g'.edges = g.edges) (hlks : g'.links = g.links) : g'.Linked root := by
  have hne : ∀ {d}, (d, i) ∉ g.edges := fun he => (h.held he).2 hi
  have hrf : ∀ j, g'.refs j = g.refs j := fun j => by rw [refs, heds, refs]
  have hblw : ∀ j, g'.below j = g.below j := by
    intro j
    rw [below, heds]
    refine countP_congr rfl fun e he => ?_
    rw [hinn _ fun h => hne (d := e.1) (h ▸ he)]
  have h0 := h.refs_eq_zero hi
  have hoth : ∀ {d j}, (d, j) ∈ g.edges → d ≠ i ∧ j ≠ i :=
    fun he => ⟨fun hd => (h.held he).1 (hd ▸ hi), fun hj => (h.held he).2 (hj ▸ hi)⟩
  cases h
  constructor <;> grind -ring -linarith

/-- A new inner node: it counts itself twice, and one for the node above. -/
theorem Linked.add_inner (hi : g.inner i) (hl : g.links i = 0) (hd : g.links d ≠ 0)
    (hdi : g.inner d) (hinn : g'.inner = g.inner) (hup : g'.up = g.up)
    (hupi : g.up i d) (heds : g'.edges = (d, i) ::ₘ g.edges)
    (hlks : ∀ j, g'.links j = if j = d then g.links d + 1 else if j = i then 2 else g.links j) :
    g'.Linked root := by
  have hrf := refs_cons heds
  have hblw := below_cons heds hinn
  have h0 := h.refs_eq_zero hl
  have hbelow0 : g.below i = 0 := below_eq_zero fun he => (h.held he).1 hl
  cases h
  constructor <;> grind -ring -linarith

theorem Linked.drop_leaf (hi : g.inner i = false) (hinn : g'.inner = g.inner) (hup : g'.up = g.up)
    (heds : g.edges = (d, i) ::ₘ g'.edges)
    (hlks : ∀ j, g'.links j = if j = i then g.links i - 1 else g.links j) :
    g'.Linked root := by
  have hrf := refs_cons heds
  have hblw := below_cons heds hinn.symm
  have hpos : ∀ {e}, (e, i) ∈ g'.edges → 0 < g'.refs i := refs_pos
  cases h
  constructor <;> grind -ring -linarith

theorem Linked.drop_inner (hi : g.inner i) (hemp : ∀ {j}, (i, j) ∉ g.edges)
    (hinn : g'.inner = g.inner) (hup : g'.up = g.up)
    (heds : g.edges = (d, i) ::ₘ g'.edges)
    (hlks : ∀ j, g'.links j =
      if j = i then 0 else if j = d then g.links d - 1 else g.links j) :
    g'.Linked root := by
  have hrf := refs_cons heds
  have hblw := below_cons heds hinn.symm
  have hpos : ∀ {e}, (e, i) ∈ g'.edges → 0 < g'.refs i := refs_pos
  cases h
  constructor <;> grind -ring -linarith

/-- A name moves; the name of an inner node stays with the same node. -/
theorem Linked.move (hs : g.links s ≠ 0) (hsi : g.inner s) (hi : g.inner i → s = d)
    (hinn : g'.inner = g.inner) (hup : g'.up = g.up) (hlks : g'.links = g.links)
    (heds : g.edges = (d, i) ::ₘ E) (heds' : g'.edges = (s, i) ::ₘ E) : g'.Linked root := by
  have hrf : ∀ j, g'.refs j = g.refs j := fun j => by
    simp [refs, heds, heds', countP_cons]
  have hblw : ∀ j, g'.below j = g.below j := fun j => by
    by_cases hii : g.inner i
    · simp [below, heds, heds', hinn, hi hii]
    · simp [below, heds, heds', hinn, hii]
  cases h
  constructor <;> grind -ring -linarith

/-- An inner node moves, and the count for its way up with it. -/
theorem Linked.move_inner (hs : g.links s ≠ 0) (hsi : g.inner s) (hsd : s ≠ d) (hi : g.inner i)
    (hinn : g'.inner = g.inner) (hup : ∀ {j e}, j ≠ i → g.up j e → g'.up j e) (hupi : g'.up i s)
    (heds : g.edges = (d, i) ::ₘ E) (heds' : g'.edges = (s, i) ::ₘ E)
    (hlks : ∀ j, g'.links j =
      if j = s then g.links s + 1 else if j = d then g.links d - 1 else g.links j) :
    g'.Linked root := by
  have hrf : ∀ j, g'.refs j = g.refs j := fun j => by
    simp [refs, heds, heds', countP_cons]
  have hblw : ∀ j, g'.below j + (if d = j then 1 else 0) = g.below j + if s = j then 1 else 0 :=
    fun j => by simp [below, heds, heds', hinn, hi, countP_cons, Nat.add_right_comm]
  have hmem : ∀ {e}, e ∈ g.edges ↔ e = (d, i) ∨ e ∈ E := by simp [heds]
  have hoth : ∀ {e j}, (e, j) ∈ E → j ≠ i := by
    rintro e j he rfl
    have hpos : 0 < E.countP fun e => e.2 = j := countP_pos.2 ⟨_, he, rfl⟩
    have htwo : g.refs j = E.countP (fun e => e.2 = j) + 1 := by simp [refs, heds]
    have hrt : j ≠ root := fun hj => by
      have := hj ▸ h.root_refs
      omega
    have := h.once hi (h.held (hmem.2 (.inl rfl))).2 hrt
    omega
  cases h
  constructor <;> grind -ring -linarith

end

end LinkGraph
end Vex.Lib
