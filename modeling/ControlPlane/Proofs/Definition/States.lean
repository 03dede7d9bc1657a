import Mathlib
import ControlPlane.Proofs.Definition.Loaded
import ControlPlane.Proofs.Topology.Attempts

/-!
# The states that tasks start in

Initial states are set key by key, in the order of the keys. A task that
several keys name is taken through all their states, on the attempt that the
first of them attaches, and keeps the last one. The last key is the greatest,
and the bare name of a vertex is the least of the keys for its tasks: the
state of a subtask prevails over the state of its vertex.
-/

namespace ControlPlane

open ControlPlane.Topology

/-! ## Setting states -/

/-- What setting a state makes of the attempt of a task: it is taken to the
state, or the first attempt is. -/
def settle (id : TaskId) (a : Option Attempt) (x : TaskId × TaskState) :
    Option Attempt :=
  if x.1 = id then some ⟨(a.map (·.number)).getD 0, x.2⟩ else a

/-- A topology after states have been set, one after the other. -/
structure Settled (t : Topology) (settings : List (TaskId × TaskState))
    (t' : Topology) : Prop where
  reachable : t'.Reachable
  staff : SameStaff t t'
  attempts : ∀ id, t.HasTask id →
    t'.currentAttempt id = settings.foldl (settle id) (t.currentAttempt id)

section Fold

variable {id : TaskId}

theorem foldl_settle_map (ids : List TaskId) (state : TaskState)
    (a : Option Attempt) :
    (ids.map (·, state)).foldl (settle id) a =
      if id ∈ ids then some ⟨(a.map (·.number)).getD 0, state⟩ else a := by
  induction ids generalizing a with
  | nil => rfl
  | cons x ids ih =>
    rw [List.map_cons, List.foldl_cons, ih, settle]
    by_cases hx : x = id
    · simp [hx]
    · simp [hx, Ne.symm hx]

/-- Of the states set for a task that was never started, the last one stays,
on attempt zero. -/
theorem foldl_settle_flatMap (named : String → List TaskId)
    (keys : List (String × TaskState)) :
    (keys.flatMap fun x => (named x.1).map (·, x.2)).foldl (settle id) none =
      (keys.filter (id ∈ named ·.1)).getLast?.map fun x => ⟨0, x.2⟩ := by
  induction keys using List.reverseRecOn with
  | nil => rfl
  | append_singleton keys x ih =>
    rw [List.flatMap_append, List.foldl_append, ih, List.filter_append,
      List.flatMap_singleton, foldl_settle_map]
    by_cases hx : id ∈ named x.1
    · cases (keys.filter (id ∈ named ·.1)).getLast? <;> simp [hx]
    · simp [hx]

end Fold

namespace Settled

variable {t t' t'' : Topology} {xs ys : List (TaskId × TaskState)}

theorem refl (h : t.Reachable) : Settled t [] t :=
  ⟨h, .refl t, fun _ _ => rfl⟩

theorem trans (h : Settled t xs t') (h' : Settled t' ys t'') :
    Settled t (xs ++ ys) t'' where
  reachable := h'.reachable
  staff := h.staff.trans h'.staff
  attempts := fun id hid => by
    rw [h'.attempts id (hid.sameStaff h.staff), h.attempts id hid,
      List.foldl_append]

end Settled

namespace LoadedJob

variable {job : LoadedJob} {t t' : Topology}

/-- A task is moved to its state after it has been given an attempt, unless
it has one. -/
theorem moved_of_applyState {id : TaskId} {state : TaskState}
    (hok : applyState t id state = (t', .ok ())) :
    ∃ t1 previous, t1.transition id state = .ok (t', previous) ∧
      ((t.currentAttempt id).isSome ∧ t1 = t ∨ t.currentAttempt id = none ∧
        ∃ number, t.attachAttempt id = .ok (t1, number)) := by
  unfold applyState at hok
  cases htask : t.task id with
  | error e =>
    rw [htask] at hok
    cases hok
  | ok task =>
    have hcurrent : t.currentAttempt id = task.attempt := by
      rw [currentAttempt, htask]
      rfl
    rw [htask] at hok
    rw [hcurrent]
    dsimp only at hok
    split at hok
    · cases hok
    rename_i t1 hstarted
    split at hok
    · cases hok
    rename_i t2 previous hmoved
    cases hok
    refine ⟨t1, previous, hmoved, ?_⟩
    cases hattempt : task.attempt with
    | some a =>
      rw [hattempt] at hstarted
      cases hstarted
      exact .inl ⟨rfl, rfl⟩
    | none =>
      rw [hattempt] at hstarted
      cases hattach : t.attachAttempt id with
      | error e =>
        rw [hattach] at hstarted
        cases hstarted
      | ok result =>
        rw [hattach] at hstarted
        cases hstarted
        exact .inr ⟨rfl, result.2, rfl⟩

/-- The calls that take a task to a state. -/
def settling (t : Topology) (id : TaskId) (state : TaskState) : List Call :=
  if (t.currentAttempt id).isSome then [.transition id state]
  else [.attachAttempt id, .transition id state]

theorem eq_runAll_of_applyState {id : TaskId} {state : TaskState}
    (hok : applyState t id state = (t', .ok ())) :
    t' = t.runAll (settling t id state) := by
  obtain ⟨t1, previous, hmoved, ⟨hsome, rfl⟩ | ⟨hnone, number, hattach⟩⟩ :=
    moved_of_applyState hok
  · rw [settling, if_pos hsome, runAll, List.foldl_cons, List.foldl_nil,
      Call.run, hmoved]
  · rw [settling, hnone, runAll]
    simp only [Option.isSome_none, Bool.false_eq_true, if_false,
      List.foldl_cons, List.foldl_nil, Call.run, hattach, hmoved]

theorem foldl_settling (t : Topology) (id id' : TaskId) (state : TaskState) :
    (settling t id' state).foldl (Call.attempt id) (t.currentAttempt id) =
      settle id (t.currentAttempt id) (id', state) := by
  rw [settle, settling]
  by_cases hid : id' = id
  · subst hid
    cases h : t.currentAttempt id' <;>
      simp [Call.attempt, Attempt.nextNumber]
  · split <;> simp [Call.attempt, hid]

theorem settled_of_applyState (h : t.Reachable) {id : TaskId}
    (hid : t.HasTask id) {state : TaskState}
    (hok : applyState t id state = (t', .ok ())) :
    Settled t [(id, state)] t' := by
  obtain ⟨t1, hok', -, hstaff⟩ := exists_applyState h.whole hid state
  cases hok.symm.trans hok'
  rw [eq_runAll_of_applyState hok] at hstaff ⊢
  refine ⟨h.runAll _, hstaff, fun other hother => ?_⟩
  rw [h.currentAttempt_runAll hother, foldl_settling]
  rfl

theorem settled_of_applyStates (h : t.Reachable) {ids : List TaskId}
    (hids : ∀ id ∈ ids, t.HasTask id) {state : TaskState} {applied n : Nat}
    (hok : applyStates state ids applied t = (t', .ok n)) :
    Settled t (ids.map (·, state)) t' := by
  induction ids generalizing applied t with
  | nil =>
    cases hok
    exact .refl h
  | cons id ids ih =>
    rw [List.forall_mem_cons] at hids
    obtain ⟨t1, hstate, -, -⟩ := exists_applyState h.whole hids.1 state
    have hfirst := settled_of_applyState h hids.1 hstate
    rw [applyStates, hstate] at hok
    exact hfirst.trans (ih hfirst.reachable
      (fun other hother => (hids.2 other hother).sameStaff hfirst.staff) hok)

/-- Keys are worked through by setting the states of the tasks that they
name. -/
theorem settled_of_applyKeys (h : t.Reachable)
    {keys : List (String × TaskState)} (named : String → List TaskId)
    (hkeys : ∀ x ∈ keys, job.tasksOfKey t x.1 = .ok (named x.1) ∧
      ∀ id ∈ named x.1, t.HasTask id) {applied n : Nat}
    (hok : job.applyKeys keys applied t = (t', .ok n)) :
    n = applied + (keys.map fun x => (named x.1).length).sum ∧
      Settled t (keys.flatMap fun x => (named x.1).map (·, x.2)) t' := by
  induction keys generalizing applied t with
  | nil =>
    cases hok
    exact ⟨rfl, .refl h⟩
  | cons x keys ih =>
    obtain ⟨key, state⟩ := x
    rw [List.forall_mem_cons] at hkeys
    obtain ⟨⟨hids, hknown⟩, hothers⟩ := hkeys
    obtain ⟨t1, hstates, -, -⟩ :=
      exists_applyStates h.whole hknown state applied
    have hfirst := settled_of_applyStates h hknown hstates
    rw [applyKeys, hids] at hok
    dsimp only at hok
    rw [hstates] at hok
    obtain ⟨hn, hrest⟩ := ih hfirst.reachable (fun y hy =>
      ⟨(tasksOfKey_congr hfirst.staff y.1).trans (hothers y hy).1,
        fun id hid => ((hothers y hy).2 id hid).sameStaff hfirst.staff⟩) hok
    refine ⟨?_, hfirst.trans hrest⟩
    rw [hn, List.map_cons, List.sum_cons, Nat.add_assoc]

end LoadedJob

namespace JobDefinition

/-- Of the keys that name a subtask, the greatest byte by byte gives its
state. -/
structure Prevails (d : JobDefinition) (key : String) (state : TaskState)
    (name : String) (subtask : Nat) : Prop where
  state : d.states[key]? = some state
  names : KeyNames key name subtask
  greatest : ∀ other ∈ d.states.keys, KeyNames other name subtask →
    Text.bytes other ≤ Text.bytes key

/-- A task of the vertex with a name starts as the initial states say. -/
structure StartsAs (d : JobDefinition) (name : String) (task : Task) :
    Prop where
  /-- A task that no key names is not started. -/
  unnamed : (∀ key ∈ d.states.keys, ¬ KeyNames key name task.id.subtask) →
    task.attempt = none ∧ task.attemptsStarted = 0
  /-- Any other task has its first attempt, in the state of the prevailing
  key. That is the bare name only if there is no other key. -/
  named : ∀ key ∈ d.states.keys, KeyNames key name task.id.subtask →
    ∃ last state, d.Prevails last state name task.id.subtask ∧
      (last = name → key = name) ∧
      task.attempt = some ⟨0, state⟩ ∧ task.attemptsStarted = 1

variable {d : JobDefinition} {supply : IdSupply} {job : LoadedJob}
  {es : List (EdgeSpec × Nat)} {t t' : Topology}

/-! ## The last key -/

section Last

variable {name : String} {subtask : Nat} {p : String × TaskState → Bool}

/-- The last key that names a subtask prevails. -/
theorem prevails_of_getLast?
    (hp : ∀ x ∈ d.states.toList, p x = true ↔ KeyNames x.1 name subtask)
    {last : String × TaskState}
    (hlast : (d.states.toList.filter p).getLast? = some last) :
    d.Prevails last.1 last.2 name subtask := by
  obtain ⟨before, hfilter⟩ := List.getLast?_eq_some_iff.mp hlast
  have hsorted : (d.states.toList.filter p).Pairwise
      (fun a b => compare a.1 b.1 = .lt) :=
    Std.TreeMap.ordered_keys_toList.filter p
  obtain ⟨hmem, hnames⟩ := List.mem_filter.mp <|
    show last ∈ d.states.toList.filter p by simp [hfilter]
  refine ⟨Std.TreeMap.mem_toList_iff_getElem?_eq_some.mp hmem,
    (hp last hmem).mp hnames, fun other hother hnames => ?_⟩
  obtain ⟨x, hx, rfl⟩ := mem_keys_iff.mp hother
  have hfiltered := List.mem_filter.mpr ⟨hx, (hp x hx).mpr hnames⟩
  rw [Text.bytes_le_iff]
  rw [hfilter, List.mem_append, List.mem_singleton] at hfiltered
  rw [hfilter, List.pairwise_append] at hsorted
  rcases hfiltered with hbefore | rfl
  · have hlt := hsorted.2.2 x hbefore last (List.mem_singleton_self _)
    exact le_of_lt (compare_lt_iff_lt.mp hlt)
  · exact le_refl _

/-- A task starts as the initial states say if its attempt is the one that
the last key naming it has left. -/
theorem startsAs_of_attempt {task : Task}
    (hp : ∀ x ∈ d.states.toList,
      p x = true ↔ KeyNames x.1 name task.id.subtask)
    (hattempt : task.attempt = (d.states.toList.filter p).getLast?.map
      fun x => ⟨0, x.2⟩) (hcounted : task.Counted) : d.StartsAs name task := by
  constructor
  · intro hnone
    have hfilter : d.states.toList.filter p = [] := by
      rw [List.filter_eq_nil_iff]
      exact fun x hx hpx =>
        hnone x.1 (mem_keys_iff.mpr ⟨x, hx, rfl⟩) ((hp x hx).mp hpx)
    have hnever : task.attempt = none := by
      rw [hattempt, hfilter]
      rfl
    refine ⟨hnever, ?_⟩
    rw [hcounted, hnever]
    rfl
  · intro key hkey hnames
    obtain ⟨x, hx, rfl⟩ := mem_keys_iff.mp hkey
    have hne : d.states.toList.filter p ≠ [] :=
      List.ne_nil_of_mem (List.mem_filter.mpr ⟨hx, (hp x hx).mpr hnames⟩)
    have hlast := List.getLast?_eq_some_getLast hne
    have hprevails := prevails_of_getLast? hp hlast
    have hfirst := hattempt
    rw [hlast] at hfirst
    refine ⟨_, _, hprevails, fun heq => ?_, hfirst, ?_⟩
    · -- The bare name is the least of these keys, so it is the only one.
      have hle := Text.bytes_le_iff.mp (hprevails.greatest x.1 hkey hnames)
      rw [heq] at hle
      exact le_antisymm hle hnames.le
    · rw [hcounted, hfirst]
      rfl

end Last

/-! ## Definitions that pass the checks -/

/-- A key names a task if it names the subtask of its vertex. -/
theorem mem_named_iff_keyNames (hg : job.graph.WellFormed) {id : TaskId}
    (hid : t.HasTask id) {v : JobVertex} (hv : v ∈ job.graph.vertices)
    (hvertex : v.id = id.vertex) {key : String} :
    id ∈ job.named t key ↔ KeyNames key v.name id.subtask := by
  constructor
  · rintro ⟨-, w, hw, hw', hnames⟩
    rw [← hg.vertex_inj hw hv (hw'.trans hvertex.symm)]
    exact hnames
  · exact fun hnames => ⟨hid, v, hv, hvertex, hnames⟩

/-- The initial states are set by setting a state for every task that a key
names, and every task counts. -/
theorem Drawn.exists_settled
    (h : d.Drawn supply d.vertices.zipIdx es job) (hvalid : d.Valid)
    (ht : t.Reachable) (hgraph : t.graph = job.graph) :
    ∃ t' : Topology, ∃ named : String → List TaskId,
      (∀ key ∈ d.states.keys, ∀ id,
        id ∈ named key ↔ id ∈ job.named t key) ∧
      job.applyInitialStates t = (t', .ok
        (d.states.keys.map fun key => (job.named t key).ncard).sum) ∧
      Settled t (d.states.toList.flatMap fun x => (named x.1).map (·, x.2))
        t' := by
  have hkeys := fun key (hkey : key ∈ d.states.keys) =>
    h.exists_tasksOfKey hvalid ht.whole hgraph hkey
  choose! named hids hnodup hnamed using hkeys
  obtain ⟨t', n, hok⟩ := h.exists_applyInitialStates hvalid ht.whole hgraph
  have hrun : job.applyKeys d.states.toList 0 t = (t', .ok n) := by
    rw [← hok, LoadedJob.applyInitialStates, h.states]
  obtain ⟨hn, hsettled⟩ := LoadedJob.settled_of_applyKeys ht named
    (fun x hx => by
      have hx := mem_keys_iff.mpr ⟨x, hx, rfl⟩
      exact ⟨hids x.1 hx, fun id hid => ((hnamed x.1 hx id).mp hid).1⟩) hrun
  refine ⟨t', named, hnamed, ?_, hsettled⟩
  have hcard : ∀ key ∈ d.states.keys,
      (named key).length = (job.named t key).ncard := by
    intro key hkey
    have hset : job.named t key = ((named key).toFinset : Set TaskId) := by
      ext id
      rw [List.coe_toFinset, Set.mem_ofPred_eq, hnamed key hkey]
    rw [hset, Set.ncard_coe_finset,
      List.toFinset_card_of_nodup (hnodup key hkey)]
  rw [hok, hn, ← List.map_congr_left hcard,
    ← Std.TreeMap.map_fst_toList_eq_keys, List.map_map, Nat.zero_add]
  rfl

theorem currentAttempt_of_ofJobGraph {g : JobGraph} (hg : g.Built)
    (ht : ofJobGraph g = .ok t) {id : TaskId} (hid : t.HasTask id) :
    t.currentAttempt id = none := by
  obtain ⟨i, hi⟩ := hid
  have hindexed := (Reachable.built hg ht).whole.wired.indexed
  have hget := Array.getElem?_eq_getElem (lt_of_taskIdAt hi)
  rw [hindexed.currentAttempt_eq hi, attemptAt, hget]
  exact unattempted_of_ofJobGraph ht _ (Array.mem_of_getElem? hget)

/-- Tasks start as the keys say once the states of the tasks that they name
have been set. -/
theorem Drawn.exists_startsAs
    (h : d.Drawn supply d.vertices.zipIdx es job)
    (ht : ofJobGraph job.graph = .ok t) (hgraph : t.graph = job.graph)
    {named : String → List TaskId}
    (hnamed : ∀ key ∈ d.states.keys, ∀ id,
      id ∈ named key ↔ id ∈ job.named t key)
    (hsettled : Settled t
      (d.states.toList.flatMap fun x => (named x.1).map (·, x.2)) t') :
    ∀ task ∈ t'.tasks, ∃ v ∈ job.graph.vertices, v.id = task.id.vertex ∧
      d.StartsAs v.name task := by
  intro task htask
  have hwhole := (Reachable.built h.built ht).whole
  obtain ⟨i, hi⟩ := Array.mem_iff_getElem?.mp htask
  have hid' := taskIdAt_of_getElem? hi
  have hid : t.taskIdAt i = some task.id := by
    rw [← hsettled.staff.taskIdAt, hid']
  obtain ⟨o, ho, hvertex⟩ := hwhole.owned i task.id hid
  obtain ⟨v, hv, hov⟩ := hwhole.staffed.vertex o ho
  have hvid : v.id = task.id.vertex := by
    rw [← hvertex, hov]
    rfl
  rw [hgraph] at hv
  have hattempt := hsettled.attempts task.id ⟨i, hid⟩
  rw [currentAttempt_of_ofJobGraph h.built ht ⟨i, hid⟩,
    foldl_settle_flatMap,
    hsettled.reachable.whole.wired.indexed.currentAttempt_eq hid',
    attemptAt, hi] at hattempt
  refine ⟨v, hv, hvid, startsAs_of_attempt (fun x hx => ?_) hattempt
    (hsettled.reachable.counted task htask)⟩
  rw [decide_eq_true_iff, hnamed x.1 (mem_keys_iff.mpr ⟨x, hx, rfl⟩),
    mem_named_iff_keyNames h.built.wellFormed ⟨i, hid⟩ hv hvid]

/-- The initial states of a definition that passes the checks can be set on
the topology of its job graph. Every key counts for all tasks that it names,
and every task starts as the keys say. -/
theorem applied_of_validate {d : JobDefinition} (hok : d.validate = .ok ())
    {supply : IdSupply}
    (hfresh : supply.Fresh d.vertices.length d.edges.length) {job : LoadedJob}
    (hload : d.load supply = .ok job) {t : Topology}
    (ht : ofJobGraph job.graph = .ok t) :
    ∃ t', job.applyInitialStates t = (t', .ok
        (d.states.keys.map fun key => (job.named t key).ncard).sum) ∧
      (∀ i, t'.taskIdAt i = t.taskIdAt i) ∧
      ∀ task ∈ t'.tasks, ∃ v ∈ job.graph.vertices, v.id = task.id.vertex ∧
        d.StartsAs v.name task := by
  have hvalid := validate_eq_ok_iff.mp hok
  have h := drawn_of_load hvalid hfresh hload
  have hgraph : t.graph = job.graph := by
    obtain ⟨t0, -, hgraph, rfl⟩ := exists_of_ofJobGraph h.built.wellFormed ht
    exact graph_computeRegions.trans hgraph
  obtain ⟨t', named, hnamed, hrun, hsettled⟩ :=
    h.exists_settled hvalid (.built h.built ht) hgraph
  exact ⟨t', hrun, hsettled.staff.taskIdAt,
    h.exists_startsAs ht hgraph hnamed hsettled⟩

/-- Three vertices whose names start alike, so that their keys mingle: in
order, they are `map`, `map-side:0`, `map:+1`, `map:01`, `map:1`, `mapper`. -/
def spelledDefinition : JobDefinition where
  name := "spelled"
  defaultParallelism := 2
  vertices := [{ name := "map" }, { name := "map-side" }, { name := "mapper" }]
  edges := [{ source := "map", target := "mapper" }]
  states := .ofList
    [("map:1", TaskState.running), ("map:+1", TaskState.finished),
      ("map:01", TaskState.failed), ("map", TaskState.canceled),
      ("map-side:0", TaskState.deploying), ("mapper", TaskState.scheduled)]

/-- The states are set, and all tasks start as the keys say. -/
theorem applied_spelledDefinition :
    spelledDefinition.validate = .ok () ∧
      (IdSupply.sequential 0).Fresh 3 1 ∧ ∃ job t t' n,
        spelledDefinition.load (.sequential 0) = .ok job ∧
        ofJobGraph job.graph = .ok t ∧
        job.applyInitialStates t = (t', .ok n) ∧
        ∀ task ∈ t'.tasks, ∃ v ∈ job.graph.vertices,
          v.id = task.id.vertex ∧ spelledDefinition.StartsAs v.name task := by
  have hok : spelledDefinition.validate = .ok () := by decide +kernel
  have hfresh : (IdSupply.sequential 0).Fresh 3 1 :=
    ⟨by decide +kernel, by decide +kernel⟩
  refine ⟨hok, hfresh, ?_⟩
  have hexpanded : ((spelledDefinition.load (.sequential 0)).toOption.map
      fun job => (ofJobGraph job.graph).isOk) = some true := by
    decide +kernel
  cases hload : spelledDefinition.load (.sequential 0) with
  | error e =>
    rw [hload] at hexpanded
    cases hexpanded
  | ok job =>
    rw [hload] at hexpanded
    cases ht : ofJobGraph job.graph with
    | error e =>
      simp [Except.toOption, ht, Except.isOk, Except.toBool] at hexpanded
    | ok t =>
      obtain ⟨t', hrun, -, hstarts⟩ := applied_of_validate hok hfresh hload ht
      exact ⟨job, t, t', _, rfl, ht, hrun, hstarts⟩

/-- The second subtask of `map` is in the state under `map:1`, the last of its
four keys. Eight states have been set for the six tasks. -/
example : ((spelledDefinition.load (.sequential 0)).toOption.bind fun job =>
    (ofJobGraph job.graph).toOption.map fun t =>
      let (t', applied) := job.applyInitialStates t
      (t'.tasks.toList.map (·.attempt), applied.toOption)) =
    some ([some ⟨0, .canceled⟩, some ⟨0, .running⟩, some ⟨0, .deploying⟩, none,
      some ⟨0, .scheduled⟩, some ⟨0, .scheduled⟩], some 8) := by
  decide +kernel

end JobDefinition

end ControlPlane
