import Mathlib
import Reclamation.Proofs.TypeGraph.Detection

/-!
# What is declared

A type graph is built up by declaring types and their fields, and a declaration that would not fit is refused. So
whatever is asked for, no name is declared twice, and what a field refers to is declared (`WellFormed`). Types and
fields are numbered by their places, and a name is found under the number of its type alone (`lookup_eq_some_iff`).

All this is about names and targets. Back-edge detection and the setting of strengths leave both as they are
(`WellFormed.of_allStrong`).
-/

set_option autoImplicit false

namespace Reclamation.TypeGraph

variable {g g' : TypeGraph}

/-- What the declarations of a graph have to do with each other. -/
structure WellFormed (g : TypeGraph) : Prop where
  /-- No two types have one name. -/
  names : (g.nodes.toList.map (·.name)).Nodup
  /-- No two fields of a type have one name. -/
  fieldNames : ∀ n ∈ g.nodes, (n.fields.toList.map (·.name)).Nodup
  /-- What a field refers to is declared. -/
  targets : ∀ n ∈ g.nodes, ∀ f ∈ n.fields, ∀ t, f.target.type? = some t → t < g.size

theorem wellFormed_empty : ({} : TypeGraph).WellFormed where
  names := List.nodup_nil
  fieldNames n hn := absurd hn (Array.not_mem_empty n)
  targets n hn := absurd hn (Array.not_mem_empty n)

/-! ## Numbers and names -/

theorem node_eq_ok_iff {t : TypeId} {n : TypeNode} : g.node t = .ok n ↔ g.nodes[t]? = some n := by
  rw [node]
  cases g.nodes[t]? with
  | none => simp
  | some n' => simp

theorem node_of_lt {t : TypeId} (ht : t < g.size) : g.node t = .ok g.nodes[t] :=
  node_eq_ok_iff.2 (Array.getElem?_eq_getElem ht)

theorem node_of_le {t : TypeId} (ht : g.size ≤ t) : g.node t = .error (.unknownType t) := by
  rw [node, Array.getElem?_eq_none ht]

theorem field_eq_ok_iff {id : FieldId} {f : Field} : g.field id = .ok f ↔ g.field? id = some f := by
  rw [field, field?, node]
  cases g.nodes[id.owner]? with
  | none => simp [bind, Except.bind]
  | some n =>
    simp only [bind, Except.bind, Option.bind_some]
    cases n.fields[id.index]? with
    | none => simp
    | some f' => simp

theorem notMem_of_lookup_eq_none {name : String} (h : g.lookup name = none) : ∀ n ∈ g.nodes, n.name ≠ name := by
  intro n hn hname
  have hfalse := Array.findIdx?_eq_none_iff.1 h n hn
  exact absurd hname (by simpa using hfalse)

/-- A name is found under the number of the one type that has it. -/
theorem lookup_eq_some_iff (hg : g.WellFormed) {name : String} {t : TypeId} :
    g.lookup name = some t ↔ ∃ n, g.node t = .ok n ∧ n.name = name := by
  simp only [node_eq_ok_iff]
  constructor
  · intro h
    obtain ⟨ht, hname, -⟩ := Array.findIdx?_eq_some_iff_getElem.1 h
    exact ⟨g.nodes[t], Array.getElem?_eq_getElem ht, by simpa using hname⟩
  · rintro ⟨n, hn, rfl⟩
    obtain ⟨ht, rfl⟩ := Array.getElem?_eq_some_iff.1 hn
    refine Array.findIdx?_eq_some_iff_getElem.2 ⟨ht, by simp, fun i hi => ?_⟩
    simp only [beq_iff_eq]
    intro hname
    have hsame : (g.nodes.toList.map (·.name))[i]? = (g.nodes.toList.map (·.name))[t]? := by
      simp [Array.getElem?_eq_getElem ht, Array.getElem?_eq_getElem (hi.trans ht), hname]
    have hlength : i < (g.nodes.toList.map (·.name)).length := by
      simpa using hi.trans ht
    exact absurd ((List.getElem?_inj hlength hg.names).1 hsame) (Nat.ne_of_lt hi)

/-! ## Declaring types -/

/-- Declaring a type either finds it or adds it at the end. -/
theorem addType_cases (g : TypeGraph) (name : String) :
    (∃ t, g.lookup name = some t ∧ g.addType name = (g, t)) ∨
      (g.lookup name = none ∧ g.addType name = ({ nodes := g.nodes.push { name } }, g.size)) := by
  rw [addType]
  cases g.lookup name with
  | some t => exact .inl ⟨t, rfl, rfl⟩
  | none => exact .inr ⟨rfl, rfl⟩

theorem WellFormed.push (hg : g.WellFormed) {name : String} (hname : g.lookup name = none) :
    ({ nodes := g.nodes.push { name } } : TypeGraph).WellFormed where
  names := by
    rw [Array.toList_push, List.map_append]
    refine hg.names.append (List.nodup_singleton name) fun x hx hx' => ?_
    obtain ⟨n, hn, rfl⟩ := List.mem_map.1 hx
    exact notMem_of_lookup_eq_none hname n (Array.mem_toList_iff.1 hn) (List.mem_singleton.1 hx')
  fieldNames n hn := by
    rcases Array.mem_push.1 hn with hn | rfl
    · exact hg.fieldNames n hn
    · exact List.nodup_nil
  targets n hn f hf t ht := by
    rcases Array.mem_push.1 hn with hn | rfl
    · rw [size, Array.size_push]
      exact Nat.lt_succ_of_lt (hg.targets n hn f hf t ht)
    · exact absurd hf (Array.not_mem_empty f)

theorem WellFormed.addType (hg : g.WellFormed) (name : String) : (g.addType name).1.WellFormed := by
  rcases g.addType_cases name with ⟨t, -, heq⟩ | ⟨hname, heq⟩
  · rw [heq]
    exact hg
  · rw [heq]
    exact hg.push hname

/-- The number that declaring a type gives is the one under which the type is found. -/
theorem lookup_addType (g : TypeGraph) (name : String) :
    (g.addType name).1.lookup name = some (g.addType name).2 := by
  rcases g.addType_cases name with ⟨t, ht, heq⟩ | ⟨hname, heq⟩
  · rw [heq]
    exact ht
  · rw [heq, lookup, Array.findIdx?_push]
    rw [lookup] at hname
    simp [hname, size]

/-! ## Declaring fields -/

/-- The graph with one more field of a type. -/
def pushField (g : TypeGraph) (owner : TypeId) (f : Field) : TypeGraph :=
  { nodes := g.nodes.modify owner fun n => { n with fields := n.fields.push f } }

theorem any_name_iff {n : TypeNode} {a : String} :
    n.fields.any (·.name == a) = true ↔ ∃ f ∈ n.fields, f.name = a := by
  rw [Array.any_eq_true']
  simp only [beq_iff_eq]

/-- A field is refused for its target, for its owner or for its name, in this order, and added otherwise. -/
theorem addField_cases (g : TypeGraph) (owner : TypeId) (name : String) (target : FieldTarget)
    (marking : Option Marking) :
    (∃ t, target.type? = some t ∧ g.size ≤ t ∧
      g.addField owner name target marking = .error (.unknownType t)) ∨
    (∀ t, target.type? = some t → t < g.size) ∧
      (g.size ≤ owner ∧ g.addField owner name target marking = .error (.unknownType owner) ∨
      ∃ n, g.nodes[owner]? = some n ∧
        ((∃ f ∈ n.fields, f.name = name) ∧
            g.addField owner name target marking = .error (.duplicateField n.name name) ∨
          (∀ f ∈ n.fields, f.name ≠ name) ∧ g.addField owner name target marking =
            .ok (g.pushField owner (.declare name target marking), ⟨owner, n.fields.size⟩))) := by
  by_cases hmissing : ∃ t, target.type? = some t ∧ g.size ≤ t
  · obtain ⟨t, ht, hle⟩ := hmissing
    refine .inl ⟨t, ht, hle, ?_⟩
    simp [addField, ht, node_of_le hle, bind, Except.bind]
  have htarget : ∀ t, target.type? = some t → t < g.size := fun t ht => by
    by_contra hle
    exact hmissing ⟨t, ht, Nat.le_of_not_lt hle⟩
  have hrest : g.addField owner name target marking = do
      let n ← g.node owner
      if n.fields.any (·.name == name) then throw (.duplicateField n.name name)
      return (g.pushField owner (.declare name target marking), ⟨owner, n.fields.size⟩) := by
    rw [addField]
    cases ht : target.type? with
    | none => rfl
    | some t =>
      simp only [node_of_lt (htarget t ht)]
      rfl
  refine .inr ⟨htarget, ?_⟩
  by_cases howner : owner < g.size
  · refine .inr ⟨g.nodes[owner], Array.getElem?_eq_getElem howner, ?_⟩
    have hany := any_name_iff (n := g.nodes[owner]) (a := name)
    rw [hrest, node_of_lt howner]
    by_cases hname : ∃ f ∈ g.nodes[owner].fields, f.name = name
    · refine .inl ⟨hname, ?_⟩
      simp only [bind, Except.bind, hany.2 hname, if_true]
      rfl
    · refine .inr ⟨fun f hf h => hname ⟨f, hf, h⟩, ?_⟩
      simp only [bind, Except.bind, hany, if_neg hname]
      rfl
  · rw [Nat.not_lt] at howner
    refine .inl ⟨howner, ?_⟩
    rw [hrest, node_of_le howner]
    rfl

theorem size_pushField (g : TypeGraph) (owner : TypeId) (f : Field) : (g.pushField owner f).size = g.size := by
  simp [pushField, size]

/-- A type of the graph with one more field was declared before, with or without it. -/
theorem mem_pushField {owner : TypeId} {f : Field} {n : TypeNode} (hn : n ∈ (g.pushField owner f).nodes) :
    n ∈ g.nodes ∨ ∃ m, g.nodes[owner]? = some m ∧ n = { m with fields := m.fields.push f } := by
  obtain ⟨t, ht⟩ := Array.mem_iff_getElem?.1 hn
  rw [pushField, Array.getElem?_modify] at ht
  split at ht
  · next howner =>
    obtain ⟨m, hm, rfl⟩ := Option.map_eq_some_iff.1 ht
    exact .inr ⟨m, howner ▸ hm, rfl⟩
  · exact .inl (Array.mem_of_getElem? ht)

theorem WellFormed.pushField (hg : g.WellFormed) {owner : TypeId} {f : Field}
    (htarget : ∀ t, f.target.type? = some t → t < g.size)
    (hname : ∀ n, g.nodes[owner]? = some n → ∀ f' ∈ n.fields, f'.name ≠ f.name) :
    (g.pushField owner f).WellFormed where
  names := by
    have hsame : (g.nodes.modify owner fun n => { n with fields := n.fields.push f }).map (·.name) =
        g.nodes.map (·.name) := map_modify_of_eq fun n => rfl
    rw [TypeGraph.pushField, ← Array.toList_map, hsame, Array.toList_map]
    exact hg.names
  fieldNames n hn := by
    rcases mem_pushField hn with hn | ⟨m, hm, rfl⟩
    · exact hg.fieldNames n hn
    · rw [Array.toList_push, List.map_append]
      refine (hg.fieldNames m (Array.mem_of_getElem? hm)).append (List.nodup_singleton f.name) fun x hx hx' => ?_
      obtain ⟨f', hf', rfl⟩ := List.mem_map.1 hx
      exact hname m hm f' (Array.mem_toList_iff.1 hf') (List.mem_singleton.1 hx')
  targets n hn f' hf' t ht := by
    rw [size_pushField]
    rcases mem_pushField hn with hn | ⟨m, hm, rfl⟩
    · exact hg.targets n hn f' hf' t ht
    · rcases Array.mem_push.1 hf' with hf' | rfl
      · exact hg.targets m (Array.mem_of_getElem? hm) f' hf' t ht
      · exact htarget t ht

/-- A field that is declared is found under the number that declaring it gives, behind the fields before. -/
theorem field_pushField {owner : TypeId} {n : TypeNode} (hn : g.nodes[owner]? = some n) (f : Field) :
    (g.pushField owner f).field? ⟨owner, n.fields.size⟩ = some f := by
  simp [field?, pushField, Array.getElem?_modify, hn]

/-- A field that is declared fits the declarations before, and is found under the number that is given. -/
theorem WellFormed.addField (hg : g.WellFormed) {owner : TypeId} {name : String} {target : FieldTarget}
    {marking : Option Marking} {id : FieldId} (h : g.addField owner name target marking = .ok (g', id)) :
    g'.WellFormed ∧ id.owner = owner ∧ g'.field id = .ok (.declare name target marking) := by
  have hcases := g.addField_cases owner name target marking
  simp only [h, reduceCtorEq, and_false, exists_false, false_or, Except.ok.injEq, Prod.mk.injEq] at hcases
  obtain ⟨htarget, n, hn, hname, rfl, rfl⟩ := hcases
  refine ⟨hg.pushField htarget fun n' hn' f hf => ?_, rfl, field_eq_ok_iff.2 (field_pushField hn _)⟩
  rw [Option.some.inj (hn'.symm.trans hn)] at hf
  exact hname f hf

/-! ## Strengths -/

/-- Well-formedness is not about strengths. -/
theorem wellFormed_allStrong : g.allStrong.WellFormed ↔ g.WellFormed := by
  have hnodes : ∀ n, n ∈ g.allStrong.nodes ↔
      ∃ m ∈ g.nodes, n = { m with fields := m.fields.map ({ · with strength := .strong }) } := by
    intro n
    simp [allStrong, eq_comm (a := n)]
  have hnames : g.allStrong.nodes.toList.map (·.name) = g.nodes.toList.map (·.name) := by
    simp [allStrong, Function.comp_def]
  constructor
  · intro h
    refine ⟨hnames ▸ h.names, fun n hn => ?_, fun n hn f hf t ht => ?_⟩
    · have hfields := h.fieldNames _ ((hnodes _).2 ⟨n, hn, rfl⟩)
      simpa [Function.comp_def] using hfields
    · have hlt := h.targets _ ((hnodes _).2 ⟨n, hn, rfl⟩) _ (Array.mem_map.2 ⟨f, hf, rfl⟩) t ht
      rwa [size_allStrong] at hlt
  · intro h
    refine ⟨hnames.symm ▸ h.names, fun n hn => ?_, fun n hn f hf t ht => ?_⟩
    · obtain ⟨m, hm, rfl⟩ := (hnodes n).1 hn
      simpa [Function.comp_def] using h.fieldNames m hm
    · obtain ⟨m, hm, rfl⟩ := (hnodes n).1 hn
      obtain ⟨f', hf', rfl⟩ := Array.mem_map.1 hf
      rw [size_allStrong]
      exact h.targets m hm f' hf' t ht

/-- What only changes strengths keeps the declarations in order. -/
theorem WellFormed.of_allStrong (hg : g.WellFormed) (h : g'.allStrong = g.allStrong) : g'.WellFormed := by
  rw [← wellFormed_allStrong, h, wellFormed_allStrong]
  exact hg

/-- The strength of a declared field can be set, and the field has it then. -/
theorem WellFormed.setStrength (hg : g.WellFormed) {id : FieldId} {s : Strength} (h : g.setStrength id s = .ok g') :
    g'.WellFormed ∧ ∃ f, g'.field id = .ok f ∧ f.strength = s := by
  rw [TypeGraph.setStrength] at h
  cases hfield : g.field id with
  | error err =>
    rw [hfield] at h
    exact absurd h (by simp [bind, Except.bind])
  | ok f =>
    rw [hfield] at h
    obtain rfl := Except.ok.inj h
    refine ⟨hg.of_allStrong (g.allStrong_modifyField id s), { f with strength := s }, ?_, rfl⟩
    rw [field_eq_ok_iff, field?_modifyField, if_pos rfl, field_eq_ok_iff.1 hfield]
    rfl

/-! ## Where references lead -/

/-- Every reference leads to a declared type. -/
theorem WellFormed.target_lt (hg : g.WellFormed) {r : Reference} (hr : r ∈ g.references) : r.target < g.size := by
  obtain ⟨hf, ht⟩ := mem_references.1 hr
  obtain ⟨n, hn, hf⟩ := Option.bind_eq_some_iff.1 hf
  exact hg.targets n (Array.mem_of_getElem? hn) r.field (Array.mem_of_getElem? hf) r.target ht

end Reclamation.TypeGraph
