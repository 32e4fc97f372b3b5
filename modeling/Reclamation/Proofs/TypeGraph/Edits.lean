import Mathlib
import Reclamation.Proofs.TypeGraph.InPlace

/-!
# Building up a type graph

A type graph is built up from the empty one by any number of edits: types and fields are declared, strengths are set,
and back edges are detected. Whatever is asked for, and whatever is refused, the store in which a program keeps the
graph stays well-formed, and it holds what the library makes of the edits (`build_exact`).

Therefore detection always goes through, and leaves every annotated field with the strength that its annotation asks
for (`Obeys`). Questions about declared types are always answered, and questions about other ones are refused
(`edits_exact`).
-/

set_option autoImplicit false

namespace Reclamation

namespace TypeGraph

variable {g g' : TypeGraph}

/-- Every annotated field has the strength that its annotation asks for. -/
def Obeys (g : TypeGraph) : Prop :=
  ∀ id f m, (id, f) ∈ g.fields → f.marking = some m → f.strength = Marking.strength (some m)

theorem obeys_detectBackEdges (g : TypeGraph) (o : AnalysisOptions) : (g.detectBackEdges o).1.Obeys := by
  intro id f m hf hm
  cases m with
  | weak =>
    obtain ⟨f', hf', -, hmarking⟩ := exists_field_of_allStrong (g.allStrong_detectBackEdges o) (mem_fields.1 hf)
    have hannotated : id ∈ g.annotatedOnly.annotatedWeak :=
      mem_annotatedWeak.2 ⟨f', mem_fields.2 hf', hmarking.trans hm⟩
    obtain ⟨f'', hf'', hweak⟩ := isWeak_detectBackEdges_iff.2 (.inl hannotated)
    rw [← Option.some.inj ((mem_fields.1 hf'').symm.trans (mem_fields.1 hf))]
    exact beq_iff_eq.1 hweak
  | strong =>
    have hstrong := isWeak_eq_false_of_strong hf hm
    rw [Field.isWeak] at hstrong
    cases hs : f.strength with
    | strong => rfl
    | weak => exact absurd (hs ▸ hstrong) (by decide)

/-! ## Edits -/

/-- A step that is asked of a type graph. -/
inductive Edit where
  | addType (name : String)
  | addField (owner : TypeId) (name : String) (target : FieldTarget) (marking : Option Marking)
  | addRef (owner : TypeId) (name : String) (target : TypeId)
  | addScalar (owner : TypeId) (name : String)
  | setStrength (id : FieldId) (s : Strength)
  | detect (o : AnalysisOptions)
  deriving DecidableEq, Repr

/-- What is answered to an edit. -/
inductive Answer where
  | type (id : TypeId)
  | field (id : FieldId)
  | done
  | report (r : BackEdgeReport)
  deriving DecidableEq, Repr

namespace Edit

/-- What the library makes of a graph that is asked for it. -/
def plain (g : TypeGraph) : Edit → Except AnalysisError (TypeGraph × Answer)
  | .addType name => .ok (Prod.map id .type (g.addType name))
  | .addField owner name target marking => (g.addField owner name target marking).map (Prod.map id .field)
  | .addRef owner name target => (g.addRef owner name target).map (Prod.map id .field)
  | .addScalar owner name => (g.addScalar owner name).map (Prod.map id .field)
  | .setStrength id s => (g.setStrength id s).map (·, .done)
  | .detect o => .ok (Prod.map id .report (g.detectBackEdges o))

/-- A graph has what was asked for, under the number that was answered. -/
def Answered (g : TypeGraph) : Edit → Answer → Prop
  | .addType name, .type t => g.lookup name = some t
  | .addField owner name target marking, .field id =>
    id.owner = owner ∧ g.field id = .ok (.declare name target marking)
  | .addRef owner name target, .field id => id.owner = owner ∧ g.field id = .ok (.declare name (.type target) none)
  | .addScalar owner name, .field id => id.owner = owner ∧ g.field id = .ok (.declare name .scalar none)
  | .setStrength id s, .done => ∃ f, g.field id = .ok f ∧ f.strength = s
  | .detect _, .report _ => g.Obeys
  | _, _ => False

variable {e : Edit} {a : Answer}

/-- Declaring a field, whichever edit asks for it. -/
theorem exists_field_of_plain (hg : g.WellFormed) {owner : TypeId} {name : String} {target : FieldTarget}
    {marking : Option Marking}
    (h : (g.addField owner name target marking).map (Prod.map id Answer.field) = .ok (g', a)) :
    ∃ id, a = .field id ∧ g'.WellFormed ∧ id.owner = owner ∧ g'.field id = .ok (.declare name target marking) := by
  cases hr : g.addField owner name target marking with
  | error err =>
    rw [hr] at h
    exact absurd h (by simp [Except.map])
  | ok r =>
    rw [hr] at h
    obtain ⟨rfl, rfl⟩ := Prod.mk.inj (Except.ok.inj h)
    exact ⟨r.2, rfl, hg.addField hr⟩

theorem of_plain (hg : g.WellFormed) (h : e.plain g = .ok (g', a)) : g'.WellFormed ∧ e.Answered g' a := by
  cases e with
  | addType name =>
    obtain ⟨rfl, rfl⟩ := Prod.mk.inj (Except.ok.inj h)
    exact ⟨hg.addType name, g.lookup_addType name⟩
  | addField owner name target marking =>
    obtain ⟨id, rfl, hfield⟩ := exists_field_of_plain hg h
    exact hfield
  | addRef owner name target =>
    obtain ⟨id, rfl, hfield⟩ := exists_field_of_plain hg h
    exact hfield
  | addScalar owner name =>
    obtain ⟨id, rfl, hfield⟩ := exists_field_of_plain hg h
    exact hfield
  | setStrength id s =>
    rw [plain] at h
    cases hr : g.setStrength id s with
    | error err =>
      rw [hr] at h
      exact absurd h (by simp [Except.map])
    | ok r =>
      rw [hr] at h
      obtain ⟨rfl, rfl⟩ := Prod.mk.inj (Except.ok.inj h)
      exact hg.setStrength hr
  | detect o =>
    obtain ⟨rfl, rfl⟩ := Prod.mk.inj (Except.ok.inj h)
    exact ⟨hg.of_allStrong (g.allStrong_detectBackEdges o), g.obeys_detectBackEdges o⟩

/-- The graph after an edit, whether it is refused or not. -/
def after (g : TypeGraph) (e : Edit) : TypeGraph :=
  match e.plain g with
  | .ok (g', _) => g'
  | .error _ => g

end Edit

/-- What the library makes of some edits in turn, from the empty graph on. -/
def build (edits : List Edit) : TypeGraph :=
  edits.foldl Edit.after {}

/-! ## Questions -/

/-- A question about a type is answered if the type is declared, as the library answers it, and refused if not. -/
def Decides {α : Type} (g : TypeGraph) (inTable : TypeId → Except Stop α) (plain : TypeId → Except AnalysisError α) :
    Prop :=
  ∀ t, (t < g.size → ∃ a, inTable t = .ok a ∧ plain t = .ok a) ∧
    (g.size ≤ t → inTable t = .error (.refused (.unknownType t)) ∧ plain t = .error (.unknownType t))

theorem WellFormed.decides_reachable (hg : g.WellFormed) : g.Decides g.reachableInTable g.reachable := by
  intro t
  constructor
  · intro ht
    exact ⟨g.reachableFrom t, reachableInTable_of_lt hg ht, reachable_eq_ok ht⟩
  · intro ht
    refine ⟨reachableInTable_of_le ht, ?_⟩
    rw [reachable, node_of_le ht]
    rfl

theorem WellFormed.decides_classify (hg : g.WellFormed) : g.Decides g.classifyInTable g.classify := by
  intro t
  constructor
  · intro ht
    refine ⟨g.shapeOf (g.reachableFrom t), classifyInTable_of_lt hg ht, ?_⟩
    rw [classify, reachable_eq_ok ht]
    rfl
  · intro ht
    refine ⟨classifyInTable_of_le ht, ?_⟩
    rw [classify, reachable, node_of_le ht]
    rfl

end TypeGraph

namespace TypeStore

open TypeGraph (Edit Answer)

variable {s s' : TypeStore} {e : Edit}

/-! ## Edits in place -/

/-- Do what is asked for. -/
def perform : Edit → InPlace Answer
  | .addType name => .type <$> addTypeInPlace name
  | .addField owner name target marking => .field <$> addFieldInPlace owner name target marking
  | .addRef owner name target => .field <$> addFieldInPlace owner name (.type target) none
  | .addScalar owner name => .field <$> addFieldInPlace owner name .scalar none
  | .setStrength id s => (fun _ => .done) <$> setInPlace id s
  | .detect o => .report <$> detectInPlace o

theorem settles_perform (hs : s.WellFormed) (e : Edit) : s.Settles ((perform e).run s) (e.plain s.graph) := by
  cases e with
  | addType name => exact (settles_addTypeInPlace hs name).map _
  | addField owner name target marking => exact (settles_addFieldInPlace hs owner name target marking).map _
  | addRef owner name target => exact (settles_addFieldInPlace hs owner name (.type target) none).map _
  | addScalar owner name => exact (settles_addFieldInPlace hs owner name .scalar none).map _
  | setStrength id s' =>
    have hset := (settles_setInPlace hs id s').map fun _ => Answer.done
    rw [Edit.plain]
    cases hr : s.graph.setStrength id s' with
    | ok g =>
      rw [hr] at hset
      exact hset
    | error err =>
      rw [hr] at hset
      exact hset
  | detect o => exact (settles_detectInPlace hs o).map _

/-- What has been done is found in the store. -/
theorem answered_of_run (hs : s.WellFormed) {a : Answer} (h : (perform e).run s = .ok a s') :
    e.Answered s'.graph a := by
  have hsettles := settles_perform hs e
  cases hplain : e.plain s.graph with
  | error err =>
    rw [hplain] at hsettles
    exact absurd (h.symm.trans hsettles) (by simp)
  | ok r =>
    rw [hplain] at hsettles
    obtain ⟨s'', hrun, hgraph, -⟩ := hsettles
    obtain ⟨rfl, rfl⟩ := EStateM.Result.ok.inj (h.symm.trans hrun)
    exact (Edit.of_plain hs.declarations (hplain.trans (by rw [hgraph]))).2

/-- The store after an edit, whether it went through or not. -/
def after (s : TypeStore) (e : Edit) : TypeStore :=
  match (perform e).run s with
  | .ok _ s' => s'
  | .error _ s' => s'

theorem after_exact (hs : s.WellFormed) (e : Edit) :
    (s.after e).WellFormed ∧ (s.after e).graph = Edit.after s.graph e := by
  have hsettles := settles_perform hs e
  rw [after, Edit.after]
  cases hplain : e.plain s.graph with
  | error err =>
    rw [hplain] at hsettles
    rw [hsettles]
    exact ⟨hs, rfl⟩
  | ok r =>
    rw [hplain] at hsettles
    obtain ⟨s', hrun, hgraph, hs'⟩ := hsettles
    rw [hrun]
    exact ⟨hs', hgraph⟩

/-- The store that some edits in turn make of the empty one. -/
def build (edits : List Edit) : TypeStore :=
  edits.foldl after {}

theorem build_exact (edits : List Edit) : (build edits).WellFormed ∧ (build edits).graph = TypeGraph.build edits := by
  rw [build, TypeGraph.build]
  induction edits using List.reverseRecOn with
  | nil => exact ⟨wellFormed_empty, graph_empty⟩
  | append_singleton edits e ih =>
    obtain ⟨hs, hgraph⟩ := ih
    rw [List.foldl_append, List.foldl_append, ← hgraph]
    exact after_exact hs e

/-- Whatever has been asked of a type graph before, its store is well-formed: the names and the numbers are those of
the types and fields in their places, and the declarations fit together. It is the store of what the library makes of
the edits. Another edit goes through or leaves the store as it was, and detection always goes through. Questions need
nothing that is not there, and are refused for types that are not declared only. -/
theorem edits_exact (edits : List Edit) :
    let s := build edits
    s.WellFormed ∧
    s.graph = TypeGraph.build edits ∧
    (∀ (name : String) (t : TypeId), s.byName[name]? = some t ↔ ∃ n, s.nodes[t]? = some n ∧ n.name = name) ∧
    (∀ e : Edit, s.Settles ((perform e).run s) (e.plain s.graph) ∧
      ∀ a s', (perform e).run s = .ok a s' → e.Answered s'.graph a) ∧
    (∀ o, ∃ r s', (perform (.detect o)).run s = .ok (.report r) s' ∧ s'.graph.Obeys) ∧
    s.graph.Decides s.graph.reachableInTable s.graph.reachable ∧
    s.graph.Decides s.graph.classifyInTable s.graph.classify ∧
    ∀ types follow, (∀ t ∈ types, t < s.nodes.size) →
      s.graph.cyclicComponentsInTable types follow = .ok (s.graph.cyclicComponents types follow) := by
  intro s
  obtain ⟨hs, hgraph⟩ : s.WellFormed ∧ s.graph = TypeGraph.build edits := build_exact edits
  have hdetects : ∀ o, ∃ r s', (perform (.detect o)).run s = .ok (.report r) s' ∧ s'.graph.Obeys := by
    intro o
    obtain ⟨s', hrun, -⟩ := settles_perform hs (.detect o)
    exact ⟨_, s', hrun, answered_of_run hs hrun⟩
  refine ⟨hs, hgraph, fun name t => hs.byName_eq_some_iff,
    fun e => ⟨settles_perform hs e, fun a s' hrun => answered_of_run hs hrun⟩, hdetects,
    hs.declarations.decides_reachable, hs.declarations.decides_classify, fun types follow htypes => ?_⟩
  rw [← size_graph] at htypes
  exact TypeGraph.cyclicComponentsInTable_eq_ok hs.declarations htypes follow

/-- A parent and a child with a reference back, which is declared a second time and set to be strong. -/
def household : List Edit :=
  [.addType "Parent", .addType "Child", .addRef 0 "child" 1, .addField 1 "parent" (.type 0) (some .weak),
    .addRef 1 "parent" 0, .addType "Parent", .addRef 1 "other" 2, .setStrength ⟨1, 0⟩ .strong]

theorem build_household : TypeGraph.build household =
    { nodes := #[{ name := "Parent", fields := #[.declare "child" (.type 1) none] },
        { name := "Child", fields := #[⟨"parent", .type 0, .strong, some .weak⟩] }] } := by
  decide +kernel

/-- What was refused has changed nothing, the two types are found to form a cycle, and detection makes the reference
back weak again. -/
theorem edits_exact_household : (∀ t ∈ [0, 1], t < (build household).nodes.size) ∧
    (build household).graph.cyclicComponentsInTable [0, 1] (fun _ => true) =
      .ok ((build household).graph.cyclicComponents [0, 1] fun _ => true) ∧
    (build household).byName["Child"]? = some 1 ∧
    ∃ r s', (perform (.detect {})).run (build household) = .ok (.report r) s' ∧ s'.graph.Obeys := by
  obtain ⟨-, hgraph, hnames, -, hdetects, -, -, hcycles⟩ := edits_exact household
  rw [build_household] at hgraph
  have htypes : ∀ t ∈ [0, 1], t < (build household).nodes.size := by
    rw [← size_graph, hgraph]
    decide
  have hchild : ∃ n, (build household).nodes[1]? = some n ∧ n.name = "Child" := by
    have hnode := (build household).nodes_graph 1
    rw [hgraph] at hnode
    obtain ⟨n, hn, hname⟩ := Option.map_eq_some_iff.1 hnode.symm
    exact ⟨n, hn, congrArg TypeNode.name hname⟩
  exact ⟨htypes, hcycles _ _ htypes, (hnames _ _).2 hchild, hdetects {}⟩

end TypeStore

end Reclamation
