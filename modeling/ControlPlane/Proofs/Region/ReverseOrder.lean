import Mathlib
import ControlPlane.Proofs.Checked.Search

/-!
# Components come in reverse topological order

A component is closed when everything that it leads to is closed already. So
of two components of which one leads to the other, that one comes later, and
the components in the order in which they were found are a reverse topological
order of the graph that they form.
-/

namespace ControlPlane

open ComponentSearch Region

/-- The strongly connected components of a graph on the numbers below `n`, in
reverse topological order. -/
structure ReverseTopological (n : Nat) (succ : Nat → List Nat)
    (components : List (List Nat)) : Prop where
  once : ∀ v < n, ∃! k : Nat, ∃ c, components[k]? = some c ∧ v ∈ c
  members : ∀ c ∈ components, c ≠ [] ∧ c.Nodup ∧ ∀ v ∈ c, v < n
  shared : ∀ v < n, ∀ w < n, (∃ c ∈ components, v ∈ c ∧ w ∈ c) ↔
    Reaches succ v w ∧ Reaches succ w v
  /-- What a component leads to comes before it. -/
  before : ∀ (i j : Nat) c d, components[i]? = some c →
    components[j]? = some d → i ≠ j →
      (∃ v ∈ c, ∃ w ∈ d, Reaches succ v w) → j < i

section Order

variable {n : Nat} {succ : Nat → List Nat}

/-- Components in the order in which they were closed. -/
theorem pairwise_stronglyConnected (hsucc : ∀ v, ∀ w ∈ succ v, w < n) :
    (stronglyConnected n succ).Pairwise fun earlier later =>
      ∀ v ∈ earlier, ∀ w ∈ later, ¬ Reaches succ v w := by
  obtain ⟨s, seen, hs, hinv, -, -⟩ := exists_search hsucc
  rw [hs, List.pairwise_reverse]
  exact hinv.settled.ordered

theorem Region.Classes.reverseTopological {components : List (List Nat)}
    (h : Classes n (Reaches succ) components)
    (hordered : components.Pairwise fun earlier later =>
      ∀ v ∈ earlier, ∀ w ∈ later, ¬ Reaches succ v w) :
    ReverseTopological n succ components where
  once _ hv := h.existsUnique hv
  members c hc := ⟨h.nonempty c hc, h.nodup c hc,
    fun v hv => (h.covers v).mp ⟨c, hc, hv⟩⟩
  shared _ hv _ _ := h.exists_shared_iff hv
  before := by
    rintro i j c d hi hj hne ⟨v, hv, w, hw, hvw⟩
    obtain ⟨hi', rfl⟩ := List.getElem?_eq_some_iff.mp hi
    obtain ⟨hj', rfl⟩ := List.getElem?_eq_some_iff.mp hj
    by_contra hle
    have hij : i < j := by omega
    exact List.pairwise_iff_getElem.mp hordered i j hi' hj' hij v hv w hw hvw

end Order

/-- The search ends within the steps that it is given, looks up nothing that
is not there, and has found the components in reverse topological order. -/
theorem reverseTopological_stronglyConnected {n : Nat}
    {succ : Array (List Nat)} (hsize : succ.size = n)
    (hsucc : ∀ l ∈ succ, ∀ w ∈ l, w < n) :
    Checked.stronglyConnected n succ =
        .ok (stronglyConnected n (succ[·]?.getD [])) ∧
      ReverseTopological n (succ[·]?.getD [])
        (stronglyConnected n (succ[·]?.getD [])) := by
  have hbelow : ∀ v : Nat, ∀ w ∈ succ[v]?.getD [], w < n := by
    intro v w hw
    cases hv : succ[v]? with
    | none => simp [hv] at hw
    | some l =>
      rw [hv, Option.getD_some] at hw
      exact hsucc l (Array.mem_of_getElem? hv) w hw
  exact ⟨Checked.stronglyConnected_eq_ok hsize hbelow,
    (classes_stronglyConnected hbelow).reverseTopological
      (pairwise_stronglyConnected hbelow)⟩

/-- Two cycles and a node, with a repeated edge and two loops: the first cycle
leads to the second one, and that to the node. -/
def twoCycles : Array (List Nat) :=
  #[[1, 1], [2, 1], [0, 3], [4, 3], [3, 5], [5]]

theorem reverseTopological_twoCycles :
    (twoCycles.size = 6 ∧ ∀ l ∈ twoCycles, ∀ w ∈ l, w < 6) ∧
    Checked.stronglyConnected 6 twoCycles =
      .ok [[5], [4, 3], [2, 1, 0]] ∧
    ReverseTopological 6 (twoCycles[·]?.getD [])
      [[5], [4, 3], [2, 1, 0]] := by
  have hsize : twoCycles.size = 6 := rfl
  have hsucc : ∀ l ∈ twoCycles, ∀ w ∈ l, w < 6 := by decide
  have hfound : stronglyConnected 6 (twoCycles[·]?.getD []) =
      [[5], [4, 3], [2, 1, 0]] := by decide +kernel
  exact ⟨⟨hsize, hsucc⟩,
    hfound ▸ reverseTopological_stronglyConnected hsize hsucc⟩

end ControlPlane
