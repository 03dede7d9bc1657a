import Mathlib
import ControlPlane.Definition.Basic
import ControlPlane.Proofs.Loops
import ControlPlane.Proofs.Sequence

/-!
# Valid definitions

A definition is a job if its names can be told apart, every vertex has
subtasks, the ends of its edges exist, and its states are for tasks that it
has. The checks say so, one part of the definition after the other.
-/

namespace ControlPlane

namespace JobDefinition

/-- The parts of a definition fit together. -/
structure Valid (d : JobDefinition) : Prop where
  name : ∀ v ∈ d.vertices, v.name ≠ "" ∧ ':' ∉ v.name.toList
  names_nodup : (d.vertices.map (·.name)).Nodup
  parallelism : ∀ v ∈ d.vertices, 0 < d.parallelismOf v
  ends : ∀ e ∈ d.edges, ∀ name ∈ [e.source, e.target],
    ∃ v ∈ d.vertices, v.name = name
  /-- A key names a vertex, and a subtask that the vertex has if it names
  one. -/
  states : ∀ key ∈ d.states.keys, ∃ v ∈ d.vertices, ∃ subtask,
    splitTaskKey key = .ok (v.name, subtask) ∧
      ∀ k ∈ subtask, k < d.parallelismOf v

theorem checkNames_eq_ok_iff {seen names : List String} :
    checkNames seen names = .ok () ↔
      (∀ name ∈ names, (name ≠ "" ∧ ':' ∉ name.toList) ∧ name ∉ seen) ∧
        names.Nodup := by
  induction names generalizing seen with
  | nil => simp [checkNames]
  | cons name names ih =>
    rw [checkNames, List.forall_mem_cons, List.nodup_cons]
    by_cases hname : (name.isEmpty || name.toList.contains ':') = true
    · rw [if_pos hname]
      refine iff_of_false nofun ?_
      rintro ⟨⟨⟨⟨hempty, hcolon⟩, -⟩, -⟩, -⟩
      simp [hempty, hcolon] at hname
    · rw [if_neg hname]
      have hform : name ≠ "" ∧ ':' ∉ name.toList := by simpa using hname
      by_cases hseen : name ∈ seen
      · rw [if_pos hseen]
        exact iff_of_false nofun fun h => h.1.1.2 hseen
      · rw [if_neg hseen, ih]
        -- The names behind it are new if they differ from it as well.
        constructor
        · rintro ⟨hnew, hnodup⟩
          refine ⟨⟨⟨hform, hseen⟩, fun other hother => ?_⟩, ?_, hnodup⟩
          · exact (hnew other hother).imp_right fun hnot hmem =>
              hnot (List.mem_cons_of_mem _ hmem)
          · exact fun hmem => (hnew name hmem).2 List.mem_cons_self
        · rintro ⟨⟨-, hnew⟩, hnot, hnodup⟩
          refine ⟨fun other hother => ?_, hnodup⟩
          refine (hnew other hother).imp_right fun hold hmem => ?_
          rcases List.mem_cons.mp hmem with rfl | hmem
          · exact hnot hother
          · exact hold hmem

variable {d : JobDefinition}

theorem vertex?_eq_some (hnodup : (d.vertices.map (·.name)).Nodup)
    {name : String} {v : VertexSpec} :
    d.vertex? name = some v ↔ v ∈ d.vertices ∧ v.name = name := by
  constructor
  · intro h
    exact ⟨List.mem_of_find?_eq_some h, by simpa using List.find?_some h⟩
  · rintro ⟨hv, rfl⟩
    refine find?_eq_some_of_unique hv (decide_eq_true rfl) fun w hw hname => ?_
    exact List.inj_on_of_nodup_map hnodup hw hv (of_decide_eq_true hname)

theorem checkParallelism_eq_ok_iff :
    d.checkParallelism = .ok () ↔ ∀ v ∈ d.vertices, 0 < d.parallelismOf v := by
  rw [checkParallelism, forM_eq_ok_iff]
  refine forall₂_congr fun v _ => ?_
  rw [Nat.pos_iff_ne_zero]
  split <;> simp_all

theorem checkEdges_eq_ok_iff :
    d.checkEdges = .ok () ↔ ∀ e ∈ d.edges, ∀ name ∈ [e.source, e.target],
      ∃ v ∈ d.vertices, v.name = name := by
  rw [checkEdges, forM_eq_ok_iff]
  refine forall₂_congr fun e _ => ?_
  rw [forM_eq_ok_iff]
  refine forall₂_congr fun name _ => ?_
  have hfound : (d.vertex? name).isSome = true ↔
      ∃ v ∈ d.vertices, v.name = name := by
    simp [vertex?, List.find?_isSome]
  rw [← hfound]
  split <;> simp_all

theorem checkStateKey_eq_ok_iff (hnodup : (d.vertices.map (·.name)).Nodup)
    {key : String} : d.checkStateKey key = .ok () ↔
      ∃ v ∈ d.vertices, ∃ subtask,
        splitTaskKey key = .ok (v.name, subtask) ∧
          ∀ k ∈ subtask, k < d.parallelismOf v := by
  constructor
  · intro h
    obtain ⟨⟨name, subtask⟩, hsplit, hrest⟩ := bind_eq_ok_iff.mp h
    dsimp only at hrest
    split at hrest
    · cases hrest
    · rename_i v hv
      obtain ⟨hmem, rfl⟩ := (vertex?_eq_some hnodup).mp hv
      refine ⟨v, hmem, subtask, hsplit, fun k hk => ?_⟩
      split at hrest
      · cases hrest
      · rename_i hrange
        cases hk
        simpa using hrange
  · rintro ⟨v, hv, subtask, hsplit, hrange⟩
    have hlookup := (vertex?_eq_some hnodup).mpr ⟨hv, rfl⟩
    have hnot : subtask.any (d.parallelismOf v ≤ ·) = false := by
      cases subtask with
      | none => rfl
      | some k => simpa using hrange k rfl
    simp [checkStateKey, hsplit, hlookup, hnot, bind, Except.bind, pure,
      Except.pure]

/-- The checks accept exactly the definitions that are jobs. -/
theorem validate_eq_ok_iff : d.validate = .ok () ↔ d.Valid := by
  have hchecks : d.validate = .ok () ↔
      checkNames [] (d.vertices.map (·.name)) = .ok () ∧
        d.checkParallelism = .ok () ∧ d.checkEdges = .ok () ∧
          d.states.keys.forM d.checkStateKey = .ok () := by
    unfold validate
    simp only [bind, bind_eq_ok_iff, Unique.exists_iff]
  have hnames : checkNames [] (d.vertices.map (·.name)) = .ok () ↔
      (∀ v ∈ d.vertices, v.name ≠ "" ∧ ':' ∉ v.name.toList) ∧
        (d.vertices.map (·.name)).Nodup := by
    rw [checkNames_eq_ok_iff]
    simp
  rw [hchecks, hnames, checkParallelism_eq_ok_iff, checkEdges_eq_ok_iff,
    forM_eq_ok_iff]
  constructor
  · rintro ⟨⟨hname, hnodup⟩, hparallelism, hends, hstates⟩
    exact ⟨hname, hnodup, hparallelism, hends, fun key hkey =>
      (checkStateKey_eq_ok_iff hnodup).mp (hstates key hkey)⟩
  · intro h
    exact ⟨⟨h.name, h.names_nodup⟩, h.parallelism, h.ends, fun key hkey =>
      (checkStateKey_eq_ok_iff h.names_nodup).mpr (h.states key hkey)⟩

end JobDefinition

end ControlPlane
