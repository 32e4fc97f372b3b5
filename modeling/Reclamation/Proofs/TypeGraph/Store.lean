import Mathlib
import Reclamation.Proofs.TypeGraph.Declarations

/-!
# Type graphs as they are stored

A type is known by its place in the order of declaration, and a field by its type and its place in it. A program
stores these numbers with the types and the fields, and next to them a map from names to the numbers of types
(`TypeStore`). What it stores says nothing new as long as each number is that of the place where it stands and the map
has the names of the types and no others (`TypeStore.WellFormed`).

A store is written to in three ways: a type is added, the fields of a type are changed, and the map gets the name of
the type that is added. What is read off a well-formed store, numbers and all, is what the graph says that is stored
(`WellFormed.fieldsOf_eq`, `WellFormed.strongGraph_eq`).
-/

set_option autoImplicit false

namespace Reclamation

/-- A field with the number that is stored with it. -/
structure StoredField extends Field where
  id : FieldId
  deriving DecidableEq, Repr

/-- A type with the number that is stored with it. -/
structure StoredType where
  id : TypeId
  name : String
  fields : Array StoredField := #[]
  deriving DecidableEq, Repr

/-- The type without the numbers. -/
def StoredType.node (n : StoredType) : TypeNode :=
  { name := n.name, fields := n.fields.map StoredField.toField }

/-- The types of a program with their numbers, and the number of each name. -/
structure TypeStore where
  nodes : Array StoredType := #[]
  byName : Std.HashMap String TypeId := ∅

namespace TypeGraph

variable {g g' : TypeGraph}

/-- Names are found in the order of the types. -/
theorem lookup_congr (h : g.nodes.map (·.name) = g'.nodes.map (·.name)) (name : String) :
    g.lookup name = g'.lookup name := by
  have hnames : ∀ g : TypeGraph, g.lookup name = (g.nodes.map (·.name)).findIdx? (· == name) := by
    intro g
    rw [lookup, Array.findIdx?_map]
    rfl
  rw [hnames, hnames, h]

theorem lookup_push (g : TypeGraph) (added name : String) :
    ({ nodes := g.nodes.push { name := added } } : TypeGraph).lookup name =
      (g.lookup name).or (if added == name then some g.size else none) := by
  rw [lookup, Array.findIdx?_push]
  rfl

end TypeGraph

/-- A change of one member is seen as a change of what is seen of it. -/
theorem map_modify {α β : Type} {xs : Array α} {i : Nat} {change : α → α} {change' : β → β} {view : α → β}
    (h : ∀ x, view (change x) = change' (view x)) : (xs.modify i change).map view = (xs.map view).modify i change' := by
  refine Array.ext_getElem? fun j => ?_
  simp only [Array.getElem?_map, Array.getElem?_modify]
  split
  · simp only [Option.map_map]
    exact Option.map_congr fun x _ => h x
  · rfl

namespace TypeStore

variable {s : TypeStore}

/-- The graph that is stored, without the numbers. -/
def graph (s : TypeStore) : TypeGraph :=
  { nodes := s.nodes.map StoredType.node }

@[simp] theorem size_graph (s : TypeStore) : s.graph.size = s.nodes.size := by
  simp [graph, TypeGraph.size]

theorem nodes_graph (s : TypeStore) (t : TypeId) : s.graph.nodes[t]? = s.nodes[t]?.map StoredType.node := by
  rw [graph, Array.getElem?_map]

/-- The graph fits together, and what is stored next to it are the numbers of the places. -/
structure WellFormed (s : TypeStore) : Prop where
  declarations : s.graph.WellFormed
  /-- A type has the number of its place. -/
  typeId : ∀ (t : TypeId) n, s.nodes[t]? = some n → n.id = t
  /-- A field has the number of its type and that of its place. -/
  fieldId : ∀ (t : TypeId) n, s.nodes[t]? = some n → ∀ (i : Nat) f, n.fields[i]? = some f → f.id = ⟨t, i⟩
  /-- The map has the names of the types. -/
  byName : ∀ name, s.byName[name]? = s.graph.lookup name

theorem graph_empty : ({} : TypeStore).graph = {} := by
  simp [graph]

theorem wellFormed_empty : ({} : TypeStore).WellFormed where
  declarations := graph_empty ▸ TypeGraph.wellFormed_empty
  typeId t n hn := absurd hn (by simp)
  fieldId t n hn := absurd hn (by simp)
  byName name := by
    rw [Std.HashMap.getElem?_empty, graph_empty, TypeGraph.lookup, Array.findIdx?_empty]

/-- A name is in the map with the number of the one type that has it. -/
theorem WellFormed.byName_eq_some_iff (hs : s.WellFormed) {name : String} {t : TypeId} :
    s.byName[name]? = some t ↔ ∃ n, s.nodes[t]? = some n ∧ n.name = name := by
  rw [hs.byName, TypeGraph.lookup_eq_some_iff hs.declarations]
  simp only [TypeGraph.node_eq_ok_iff, nodes_graph, Option.map_eq_some_iff]
  constructor
  · rintro ⟨_, ⟨n, hn, rfl⟩, hname⟩
    exact ⟨n, hn, hname⟩
  · rintro ⟨n, hn, hname⟩
    exact ⟨_, ⟨n, hn, rfl⟩, hname⟩

/-! ## What is written -/

/-- The store with one more type. -/
def push (s : TypeStore) (name : String) : TypeStore :=
  { nodes := s.nodes.push { id := s.nodes.size, name }, byName := s.byName.insert name s.nodes.size }

/-- The store with other fields of a type. -/
def modifyFields (s : TypeStore) (owner : TypeId) (change : Array StoredField → Array StoredField) : TypeStore :=
  { s with nodes := s.nodes.modify owner fun n => { n with fields := change n.fields } }

/-- The store with one more field of a type. -/
def pushField (s : TypeStore) (owner : TypeId) (f : StoredField) : TypeStore :=
  s.modifyFields owner (·.push f)

/-- The store with another strength of a field. -/
def setStrength (s : TypeStore) (id : FieldId) (strength : Strength) : TypeStore :=
  s.modifyFields id.owner (·.modify id.index ({ · with strength }))

theorem graph_push (s : TypeStore) (name : String) :
    (s.push name).graph = { nodes := s.graph.nodes.push { name } } := by
  simp [push, graph, StoredType.node]

theorem graph_modifyFields (s : TypeStore) (owner : TypeId) {change : Array StoredField → Array StoredField}
    (change' : Array Field → Array Field)
    (h : ∀ fields, (change fields).map StoredField.toField = change' (fields.map StoredField.toField)) :
    (s.modifyFields owner change).graph =
      { nodes := s.graph.nodes.modify owner fun n => { n with fields := change' n.fields } } := by
  rw [graph, modifyFields, map_modify]
  · rfl
  · intro n
    rw [StoredType.node, h]
    rfl

theorem graph_pushField (s : TypeStore) (owner : TypeId) (f : StoredField) :
    (s.pushField owner f).graph = s.graph.pushField owner f.toField :=
  s.graph_modifyFields owner (·.push f.toField) fun _ => Array.map_push

theorem graph_setStrength (s : TypeStore) (id : FieldId) (strength : Strength) :
    (s.setStrength id strength).graph = s.graph.modifyField id ({ · with strength }) :=
  s.graph_modifyFields id.owner (·.modify id.index ({ · with strength })) fun _ => map_modify fun _ => rfl

/-- Changes of fields leave the names of the types alone. -/
theorem lookup_modifyFields (s : TypeStore) (owner : TypeId) (change : Array StoredField → Array StoredField)
    (name : String) : (s.modifyFields owner change).graph.lookup name = s.graph.lookup name := by
  refine TypeGraph.lookup_congr ?_ name
  simp only [graph, modifyFields, Array.map_map]
  exact TypeGraph.map_modify_of_eq fun n => rfl

namespace WellFormed

theorem push (hs : s.WellFormed) {name : String} (hname : s.graph.lookup name = none) :
    (s.push name).WellFormed where
  declarations := by
    rw [graph_push]
    exact hs.declarations.push hname
  typeId t n hn := by
    rw [TypeStore.push, Array.getElem?_push] at hn
    split at hn
    · next ht =>
      obtain rfl := Option.some.inj hn
      exact ht.symm
    · exact hs.typeId t n hn
  fieldId t n hn i f hf := by
    rw [TypeStore.push, Array.getElem?_push] at hn
    split at hn
    · obtain rfl := Option.some.inj hn
      exact absurd hf (by simp)
    · exact hs.fieldId t n hn i f hf
  byName name' := by
    rw [graph_push, TypeGraph.lookup_push, TypeStore.push, Std.HashMap.getElem?_insert, hs.byName]
    by_cases hsame : name = name'
    · subst hsame
      simp [hname]
    · simp [hsame]

/-- Changed fields have to keep the numbers of their places, and to fit together with the other declarations. -/
theorem modifyFields (hs : s.WellFormed) {owner : TypeId} {change : Array StoredField → Array StoredField}
    (hgraph : (s.modifyFields owner change).graph.WellFormed)
    (hids : ∀ n, s.nodes[owner]? = some n → ∀ (i : Nat) f, (change n.fields)[i]? = some f → f.id = ⟨owner, i⟩) :
    (s.modifyFields owner change).WellFormed where
  declarations := hgraph
  typeId t n hn := by
    rw [TypeStore.modifyFields, Array.getElem?_modify] at hn
    split at hn
    · obtain ⟨m, hm, rfl⟩ := Option.map_eq_some_iff.1 hn
      exact hs.typeId t m hm
    · exact hs.typeId t n hn
  fieldId t n hn i f hf := by
    rw [TypeStore.modifyFields, Array.getElem?_modify] at hn
    split at hn
    · next howner =>
      subst howner
      obtain ⟨m, hm, rfl⟩ := Option.map_eq_some_iff.1 hn
      exact hids m hm i f hf
    · exact hs.fieldId t n hn i f hf
  byName name := (hs.byName name).trans (s.lookup_modifyFields owner change name).symm

theorem pushField (hs : s.WellFormed) {owner : TypeId} {n : StoredType} (hn : s.nodes[owner]? = some n) {f : Field}
    (hgraph : (s.graph.pushField owner f).WellFormed) :
    (s.pushField owner { toField := f, id := ⟨owner, n.fields.size⟩ }).WellFormed := by
  refine hs.modifyFields ?_ fun n' hn' i f' hf' => ?_
  · rw [← TypeStore.pushField, graph_pushField]
    exact hgraph
  · obtain rfl := Option.some.inj (hn.symm.trans hn')
    rw [Array.getElem?_push] at hf'
    split at hf'
    · next hi =>
      obtain rfl := Option.some.inj hf'
      rw [hi]
    · exact hs.fieldId owner n hn i f' hf'

theorem setStrength (hs : s.WellFormed) (id : FieldId) (strength : Strength) :
    (s.setStrength id strength).WellFormed := by
  refine hs.modifyFields ?_ fun n hn i f hf => ?_
  · rw [← TypeStore.setStrength, graph_setStrength]
    exact hs.declarations.of_allStrong (s.graph.allStrong_modifyField id strength)
  · rw [Array.getElem?_modify] at hf
    split at hf
    · obtain ⟨f', hf', rfl⟩ := Option.map_eq_some_iff.1 hf
      exact hs.fieldId id.owner n hn i f' hf'
    · exact hs.fieldId id.owner n hn i f hf

end WellFormed

/-! ## What is read -/

/-- The fields of a type under the numbers that are stored, in order. -/
def fieldsOf (s : TypeStore) (t : TypeId) : List (FieldId × Field) :=
  match s.nodes[t]? with
  | some n => n.fields.toList.map fun f => (f.id, f.toField)
  | none => []

/-- The fields of all types under the numbers that are stored, in order. -/
def fields (s : TypeStore) : List (FieldId × Field) :=
  (List.range s.nodes.size).flatMap s.fieldsOf

/-- The references of a type with known targets, in order. -/
def referencesOf (s : TypeStore) (t : TypeId) : List Reference :=
  (s.fieldsOf t).filterMap fun (id, field) => field.target.type?.map fun target => { id, field, target }

/-- The references of all types with known targets, in order. -/
def references (s : TypeStore) : List Reference :=
  (List.range s.nodes.size).flatMap s.referencesOf

/-- The strong references of types to other ones, as edges between types. -/
def strongGraph (s : TypeStore) : Digraph Reference where
  size := s.nodes.size
  out t := ((s.referencesOf t).filter fun r => !r.field.isWeak && r.target != t).map fun r => (r, r.target)

namespace WellFormed

variable (hs : s.WellFormed)

include hs

theorem map_id_eq : s.nodes.toList.map (·.id) = List.range s.nodes.size := by
  refine List.ext_getElem? fun t => ?_
  rw [List.getElem?_map, Array.getElem?_toList]
  cases hn : s.nodes[t]? with
  | none =>
    have ht : s.nodes.size ≤ t := Array.getElem?_eq_none_iff.1 hn
    rw [List.getElem?_eq_none (by simpa using ht)]
    rfl
  | some n =>
    have ht : t < s.nodes.size := (Array.getElem?_eq_some_iff.1 hn).1
    rw [List.getElem?_range ht, Option.map_some, hs.typeId t n hn]

theorem fieldsOf_eq (t : TypeId) : s.fieldsOf t = s.graph.fieldsOf t := by
  rw [TypeStore.fieldsOf, TypeGraph.fieldsOf, nodes_graph]
  cases hn : s.nodes[t]? with
  | none => rfl
  | some n =>
    refine List.ext_getElem? fun i => ?_
    simp only [Option.map_some, StoredType.node, List.getElem?_map, List.getElem?_zipIdx, Array.getElem?_toList,
      Array.toList_map, Option.map_map]
    cases hf : n.fields[i]? with
    | none => rfl
    | some f => simp [hs.fieldId t n hn i f hf]

theorem fields_eq : s.fields = s.graph.fields := by
  rw [TypeStore.fields, TypeGraph.fields, size_graph]
  exact List.flatMap_congr fun t _ => hs.fieldsOf_eq t

theorem referencesOf_eq (t : TypeId) : s.referencesOf t = s.graph.referencesOf t := by
  rw [TypeStore.referencesOf, TypeGraph.referencesOf, hs.fieldsOf_eq]

theorem references_eq : s.references = s.graph.references := by
  rw [TypeStore.references, TypeGraph.references, size_graph]
  exact List.flatMap_congr fun t _ => hs.referencesOf_eq t

theorem strongGraph_eq : s.strongGraph = s.graph.strongGraph := by
  have hout : ∀ t, s.strongGraph.out t = s.graph.strongGraph.out t := by
    intro t
    refine congrArg (List.map fun r : Reference => (r, r.target)) ?_
    rw [hs.referencesOf_eq]
    refine List.filter_congr fun r hr => ?_
    rw [Reference.isSelf, (TypeGraph.mem_referencesOf.1 hr).1]
    rfl
  have hsize : s.strongGraph.size = s.graph.strongGraph.size := s.size_graph.symm
  cases hgraph : s.strongGraph
  cases hgraph' : s.graph.strongGraph
  rw [hgraph, hgraph'] at hsize hout
  obtain rfl := hsize
  obtain rfl := funext hout
  rfl

end WellFormed

end TypeStore

end Reclamation
