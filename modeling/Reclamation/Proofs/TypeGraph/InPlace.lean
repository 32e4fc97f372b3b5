import Mathlib
import Reclamation.Proofs.TypeGraph.Store
import Reclamation.Proofs.TypeGraph.Strengths
import Reclamation.Proofs.TypeGraph.Tables

/-!
# Type graphs changed in place

A program keeps one store of types and changes it step by step. A step that stops leaves behind whatever it has
written until then (`InPlace`). Declaring a type or a field and setting a strength check everything before they write,
so what is refused changes nothing, and otherwise the store is that of the graph that the library returns (`Settles`).

Detection writes one field after the other, by the numbers that are stored, and asks in between where references lead
(`detectInPlace`). In a well-formed store it does not stop halfway, and comes to what the library says
(`settles_detectInPlace`): every field that it sets is declared, and the questions do not depend on the strengths that
it has set by then.
-/

set_option autoImplicit false

namespace Reclamation

/-- Computations on a store in place. What has been written is kept when they stop. -/
abbrev InPlace : Type → Type :=
  EStateM Stop TypeStore

namespace TypeStore

variable {s s' : TypeStore} {o : AnalysisOptions}

/-! ## Steps -/

/-- Ask a question about the store, which stays as it is. -/
def ask {α : Type} (question : TypeStore → Except Stop α) : InPlace α := fun s =>
  match question s with
  | .ok a => .ok a s
  | .error stop => .error stop s

section

variable {α β : Type} {x : InPlace α} {a : α} {stop : Stop}

theorem run_bind_of_ok (h : x.run s = .ok a s') (f : α → InPlace β) : (x >>= f).run s = (f a).run s' := by
  show EStateM.bind x f s = f a s'
  rw [EStateM.run] at h
  simp only [EStateM.bind, h]

theorem run_bind_of_error (h : x.run s = .error stop s') (f : α → InPlace β) : (x >>= f).run s = .error stop s' := by
  show EStateM.bind x f s = .error stop s'
  rw [EStateM.run] at h
  simp only [EStateM.bind, h]

theorem run_bind_get (f : TypeStore → InPlace β) : (get >>= f).run s = (f s).run s :=
  rfl

theorem run_map_of_ok (h : x.run s = .ok a s') (f : α → β) : (f <$> x).run s = .ok (f a) s' := by
  show EStateM.map f x s = .ok (f a) s'
  rw [EStateM.run] at h
  simp only [EStateM.map, h]

theorem run_map_of_error (h : x.run s = .error stop s') (f : α → β) : (f <$> x).run s = .error stop s' := by
  show EStateM.map f x s = .error stop s'
  rw [EStateM.run] at h
  simp only [EStateM.map, h]

variable {question : TypeStore → Except Stop α}

theorem run_ask_of_ok (h : question s = .ok a) : (ask question).run s = .ok a s := by
  simp only [EStateM.run, ask, h]

theorem run_ask_of_error (h : question s = .error stop) : (ask question).run s = .error stop s := by
  simp only [EStateM.run, ask, h]

/-- A step in place comes to what the library says: a well-formed store of the graph that it returns, or the store as
it was if the step is refused. -/
def Settles (s : TypeStore) (result : EStateM.Result Stop TypeStore α) : Except AnalysisError (TypeGraph × α) → Prop
  | .ok (g, a) => ∃ s', result = .ok a s' ∧ s'.graph = g ∧ s'.WellFormed
  | .error err => result = .error (.refused err) s

theorem Settles.map {r : Except AnalysisError (TypeGraph × α)} (h : s.Settles (x.run s) r) (f : α → β) :
    s.Settles ((f <$> x).run s) (r.map (Prod.map id f)) := by
  cases r with
  | ok y =>
    obtain ⟨s', hrun, hgraph, hs'⟩ := h
    exact ⟨s', run_map_of_ok hrun f, hgraph, hs'⟩
  | error err => exact run_map_of_error h f

end

/-! ## Declaring types and fields -/

/-- Declare a type, unless there is one of this name. -/
def addTypeInPlace (name : String) : InPlace TypeId := do
  let s ← get
  match s.byName[name]? with
  | some t => return t
  | none =>
    set (s.push name)
    return s.nodes.size

theorem settles_addTypeInPlace (hs : s.WellFormed) (name : String) :
    s.Settles ((addTypeInPlace name).run s) (.ok (s.graph.addType name)) := by
  rw [addTypeInPlace, run_bind_get, hs.byName]
  rcases s.graph.addType_cases name with ⟨t, ht, heq⟩ | ⟨hname, heq⟩
  · rw [ht, heq]
    exact ⟨s, rfl, rfl, hs⟩
  · rw [hname, heq, size_graph]
    exact ⟨s.push name, rfl, s.graph_push name, hs.push hname⟩

/-- A stored type; another one is refused. -/
def needType (s : TypeStore) (t : TypeId) : Except Stop StoredType :=
  match s.nodes[t]? with
  | some n => .ok n
  | none => .error (.refused (.unknownType t))

theorem needType_of_some {t : TypeId} {n : StoredType} (hn : s.nodes[t]? = some n) : s.needType t = .ok n := by
  rw [needType, hn]

theorem needType_of_le {t : TypeId} (ht : s.nodes.size ≤ t) : s.needType t = .error (.refused (.unknownType t)) := by
  rw [needType, Array.getElem?_eq_none ht]

/-- Look for the type that a field is to refer to. -/
def needTarget (s : TypeStore) (target : FieldTarget) : Except Stop Unit :=
  match target.type? with
  | some t => (s.needType t).map fun _ => ()
  | none => .ok ()

theorem needTarget_of_le {target : FieldTarget} {t : TypeId} (htype : target.type? = some t)
    (ht : s.nodes.size ≤ t) : s.needTarget target = .error (.refused (.unknownType t)) := by
  simp only [needTarget, htype, needType_of_le ht]
  rfl

theorem needTarget_eq_ok {target : FieldTarget} (h : ∀ t, target.type? = some t → t < s.nodes.size) :
    s.needTarget target = .ok () := by
  rw [needTarget]
  cases htype : target.type? with
  | none => rfl
  | some t =>
    simp only [needType_of_some (Array.getElem?_eq_getElem (h t htype))]
    rfl

/-- Declare a field. What it refers to, the type that gets it and its name are checked one after the other. -/
def addFieldInPlace (owner : TypeId) (name : String) (target : FieldTarget) (marking : Option Marking) :
    InPlace FieldId := do
  ask (·.needTarget target)
  let n ← ask (·.needType owner)
  if n.fields.any (·.name == name) then throw (.refused (.duplicateField n.name name))
  else
    let id : FieldId := ⟨owner, n.fields.size⟩
    modify (·.pushField owner { toField := .declare name target marking, id })
    return id

theorem any_name_node (n : StoredType) (name : String) :
    n.fields.any (·.name == name) = n.node.fields.any (·.name == name) := by
  rw [StoredType.node, Array.any_map]
  rfl

/-- A field is declared in place, or refused, as the library does it. -/
theorem settles_addFieldInPlace (hs : s.WellFormed) (owner : TypeId) (name : String) (target : FieldTarget)
    (marking : Option Marking) :
    s.Settles ((addFieldInPlace owner name target marking).run s) (s.graph.addField owner name target marking) := by
  rw [addFieldInPlace]
  rcases s.graph.addField_cases owner name target marking with ⟨t, ht, hle, heq⟩ | ⟨htarget, hrest⟩
  · rw [size_graph] at hle
    rw [heq]
    exact run_bind_of_error (run_ask_of_error (needTarget_of_le ht hle)) _
  simp only [size_graph] at htarget hrest
  rw [run_bind_of_ok (run_ask_of_ok (needTarget_eq_ok htarget))]
  rcases hrest with ⟨hle, heq⟩ | ⟨n, hn, hrest⟩
  · rw [heq]
    exact run_bind_of_error (run_ask_of_error (needType_of_le hle)) _
  rw [nodes_graph] at hn
  obtain ⟨m, hm, rfl⟩ := Option.map_eq_some_iff.1 hn
  rw [run_bind_of_ok (run_ask_of_ok (needType_of_some hm)), any_name_node]
  rcases hrest with ⟨hname, heq⟩ | ⟨hname, heq⟩
  · rw [heq, if_pos (TypeGraph.any_name_iff.2 hname)]
    rfl
  · have hnone : ¬ m.node.fields.any (·.name == name) = true := by
      rw [TypeGraph.any_name_iff]
      rintro ⟨f, hf, h⟩
      exact hname f hf h
    have hsize : m.node.fields.size = m.fields.size := by
      simp [StoredType.node]
    have hfield := (hs.declarations.addField heq).1
    rw [if_neg hnone, heq, hsize]
    exact ⟨_, rfl, s.graph_pushField owner _, hs.pushField hm hfield⟩

/-! ## Strengths -/

/-- A stored field; another one is refused. -/
def needField (s : TypeStore) (id : FieldId) : Except Stop StoredField := do
  let n ← s.needType id.owner
  match n.fields[id.index]? with
  | some f => .ok f
  | none => .error (.refused (.unknownField id))

/-- A field is found in the store, or refused, as in the graph. -/
theorem needField_cases (s : TypeStore) (id : FieldId) :
    (∃ f, s.needField id = .ok f ∧ s.graph.field id = .ok f.toField) ∨
      ∃ err, s.needField id = .error (.refused err) ∧ s.graph.field id = .error err := by
  rw [needField, needType, TypeGraph.field, TypeGraph.node, nodes_graph]
  cases s.nodes[id.owner]? with
  | none => exact .inr ⟨_, rfl, rfl⟩
  | some n =>
    simp only [Option.map_some, bind, Except.bind, StoredType.node, Array.getElem?_map]
    cases n.fields[id.index]? with
    | none => exact .inr ⟨_, rfl, rfl⟩
    | some f => exact .inl ⟨f, rfl, rfl⟩

/-- Set the strength of a field. -/
def setInPlace (id : FieldId) (strength : Strength) : InPlace Unit := do
  let _ ← ask (·.needField id)
  modify (·.setStrength id strength)

theorem settles_setInPlace (hs : s.WellFormed) (id : FieldId) (strength : Strength) :
    s.Settles ((setInPlace id strength).run s) ((s.graph.setStrength id strength).map (·, ())) := by
  rw [setInPlace, TypeGraph.setStrength]
  rcases s.needField_cases id with ⟨f, hneed, hfield⟩ | ⟨err, hneed, hfield⟩
  · rw [run_bind_of_ok (run_ask_of_ok hneed), hfield]
    exact ⟨_, rfl, s.graph_setStrength id strength, hs.setStrength id strength⟩
  · rw [run_bind_of_error (run_ask_of_error hneed), hfield]
    rfl

theorem run_setInPlace_of_field? {id : FieldId} {f : Field} (hf : s.graph.field? id = some f) (strength : Strength) :
    (setInPlace id strength).run s = .ok () (s.setStrength id strength) := by
  rw [setInPlace]
  rcases s.needField_cases id with ⟨f', hneed, -⟩ | ⟨err, -, hfield⟩
  · rw [run_bind_of_ok (run_ask_of_ok hneed)]
    rfl
  · rw [TypeGraph.field_eq_ok_iff.2 hf] at hfield
    exact absurd hfield (by simp)

/-- The store with the strengths of some fields set, in turn. -/
def assign (s : TypeStore) (changes : List (FieldId × Strength)) : TypeStore :=
  changes.foldl (fun s c => s.setStrength c.1 c.2) s

theorem graph_assign (s : TypeStore) (changes : List (FieldId × Strength)) :
    (s.assign changes).graph = s.graph.assign changes := by
  induction changes generalizing s with
  | nil => rfl
  | cons c changes ih =>
    show ((s.setStrength c.1 c.2).assign changes).graph = (s.graph.modifyField c.1 _).assign changes
    rw [ih, graph_setStrength]

theorem WellFormed.assign (hs : s.WellFormed) (changes : List (FieldId × Strength)) :
    (s.assign changes).WellFormed := by
  induction changes generalizing s with
  | nil => exact hs
  | cons c changes ih => exact ih (hs.setStrength c.1 c.2)

/-- Set the strengths of some fields, in turn. -/
def assignInPlace : List (FieldId × Strength) → InPlace Unit
  | [] => return
  | c :: changes => do
    setInPlace c.1 c.2
    assignInPlace changes

theorem run_assignInPlace {changes : List (FieldId × Strength)} (h : ∀ c ∈ changes, ∃ f, s.graph.field? c.1 = some f) :
    (assignInPlace changes).run s = .ok () (s.assign changes) := by
  induction changes generalizing s with
  | nil => rfl
  | cons c changes ih =>
    obtain ⟨f, hf⟩ := h c List.mem_cons_self
    rw [assignInPlace, run_bind_of_ok (run_setInPlace_of_field? hf c.2)]
    refine ih fun c' hc' => ?_
    obtain ⟨f', hf'⟩ := h c' (List.mem_cons_of_mem c hc')
    rw [graph_setStrength, TypeGraph.field?_modifyField, hf']
    split
    · exact ⟨_, rfl⟩
    · exact ⟨f', rfl⟩

/-! ## Detection, step by step -/

/-- The references that close a cycle on the walk of the third rule, with the marks in a table. -/
def structuralInTable (s : TypeStore) : Except Stop (List FieldId) := do
  let events ← s.strongGraph.walkInTable (s.nodes.toList.map (·.id))
  return ((events.filterMap Event.back?).filter (·.field.marking.isNone)).map (·.id)

theorem structuralInTable_eq_ok (hs : s.WellFormed) : s.structuralInTable = .ok s.graph.structuralBackEdges := by
  have hwalk : s.graph.strongGraph.walkInTable (List.range s.graph.size) =
      .ok (s.graph.strongGraph.walk (List.range s.graph.size)) :=
    Digraph.walkInTable_eq_ok (hs.declarations.closed_referenceGraph _) fun t ht => List.mem_range.1 ht
  rw [structuralInTable, hs.strongGraph_eq, hs.map_id_eq, ← size_graph, hwalk]
  rfl

/-- Make those of some references weak whose target leads back to their owner, and tell which. -/
def weakenBackward : List Reference → InPlace (List FieldId)
  | [] => return []
  | r :: rest => do
    if ← ask fun s => s.graph.reachesInTable r.target r.id.owner then
      setInPlace r.id .weak
      return r.id :: (← weakenBackward rest)
    else weakenBackward rest

/-- The references that the third rule makes weak, if it applies. -/
def closingInPlace (o : AnalysisOptions) : InPlace (List FieldId) :=
  if o.structural then ask structuralInTable else return []

/-- Decide anew which references are weak, writing down each decision when it is made. -/
def detectInPlace (o : AnalysisOptions) : InPlace BackEdgeReport := do
  let declared := (← get).fields
  assignInPlace (declared.map fun x => (x.1, Marking.strength x.2.marking))
  let candidates := (← get).references.filter fun r => r.field.marking.isNone && o.matchesWord r.field.name
  let named ← weakenBackward candidates
  let structural ← closingInPlace o
  assignInPlace (structural.map (·, .weak))
  let annotated := (declared.filter (·.2.marking == some .weak)).map (·.1)
  return { decided := annotated.map (·, .annotated) ++ named.map (·, .heuristic)
             ++ structural.map (·, .structural) }

/-- The strengths that have been set until then do not bear on which of the references lead back. -/
theorem run_weakenBackward {start : TypeGraph} (hstart : start.WellFormed) {candidates : List Reference}
    (hcandidates : ∀ r ∈ candidates, r ∈ start.references) (h : s.graph.allStrong = start.allStrong) :
    (weakenBackward candidates).run s =
      .ok ((candidates.filter fun r => start.leadsTo r.target r.id.owner).map (·.id))
        (s.assign (((candidates.filter fun r => start.leadsTo r.target r.id.owner).map (·.id)).map (·, .weak))) := by
  induction candidates generalizing s with
  | nil => rfl
  | cons r rest ih =>
    have hr := hcandidates r List.mem_cons_self
    have hrest := fun r' hr' => hcandidates r' (List.mem_cons_of_mem r hr')
    have hlt : r.target < s.graph.size := by
      rw [TypeGraph.size_eq_of_allStrong h]
      exact hstart.target_lt hr
    have hback : (ask fun s => s.graph.reachesInTable r.target r.id.owner).run s =
        .ok (start.leadsTo r.target r.id.owner) s := by
      rw [← TypeGraph.leadsTo_of_allStrong h]
      exact run_ask_of_ok (TypeGraph.reachesInTable_of_lt (hstart.of_allStrong h) hlt r.id.owner)
    rw [weakenBackward, run_bind_of_ok hback]
    cases hleads : start.leadsTo r.target r.id.owner with
    | false =>
      rw [List.filter_cons_of_neg (by simp [hleads])]
      exact ih hrest h
    | true =>
      obtain ⟨f, hf, -⟩ := TypeGraph.exists_field_of_allStrong h.symm (TypeGraph.mem_references.1 hr).1
      have hset : (s.setStrength r.id .weak).graph.allStrong = start.allStrong := by
        rw [graph_setStrength, TypeGraph.allStrong_modifyField, h]
      rw [List.filter_cons_of_pos (by simp [hleads])]
      show (setInPlace r.id .weak >>= fun _ => _).run s = _
      rw [run_bind_of_ok (run_setInPlace_of_field? hf .weak), run_bind_of_ok (ih hrest hset)]
      rfl

/-! ## Detection, rule by rule -/

/-- The store with the strengths that the annotations ask for. -/
def annotated (s : TypeStore) : TypeStore :=
  s.assign (s.graph.fields.map fun x => (x.1, Marking.strength x.2.marking))

/-- The store after the first two rules. -/
def namedWeak (s : TypeStore) (o : AnalysisOptions) : TypeStore :=
  s.annotated.assign ((s.graph.annotatedOnly.namedBackEdges o).map (·, .weak))

theorem graph_annotated (s : TypeStore) : s.annotated.graph = s.graph.annotatedOnly := by
  rw [annotated, graph_assign, TypeGraph.assign_marked]

theorem graph_namedWeak (s : TypeStore) (o : AnalysisOptions) : (s.namedWeak o).graph = s.graph.namedWeak o := by
  rw [namedWeak, graph_assign, graph_annotated, TypeGraph.assign_weak]
  rfl

theorem run_annotated (s : TypeStore) :
    (assignInPlace (s.graph.fields.map fun x => (x.1, Marking.strength x.2.marking))).run s =
      .ok () s.annotated := by
  refine run_assignInPlace fun c hc => ?_
  obtain ⟨x, hx, rfl⟩ := List.mem_map.1 hc
  exact ⟨x.2, TypeGraph.mem_fields.1 hx⟩

/-- The candidates of the second rule of which one leads back are the back edges by name. -/
theorem run_namedWeak (hs : s.WellFormed) (o : AnalysisOptions) :
    (weakenBackward (s.graph.annotatedOnly.references.filter fun r =>
      r.field.marking.isNone && o.matchesWord r.field.name)).run s.annotated =
        .ok (s.graph.annotatedOnly.namedBackEdges o) (s.namedWeak o) := by
  have hannotated : s.graph.annotatedOnly.WellFormed :=
    hs.declarations.of_allStrong s.graph.allStrong_annotatedOnly
  have hsame : s.annotated.graph.allStrong = s.graph.annotatedOnly.allStrong := by
    rw [graph_annotated]
  have hnamed : ((s.graph.annotatedOnly.references.filter fun r =>
      r.field.marking.isNone && o.matchesWord r.field.name).filter fun r =>
        s.graph.annotatedOnly.leadsTo r.target r.id.owner).map (·.id) = s.graph.annotatedOnly.namedBackEdges o := by
    rw [List.filter_filter, TypeGraph.namedBackEdges]
    exact congrArg _ (List.filter_congr fun r _ => Bool.and_comm _ _)
  rw [run_weakenBackward hannotated (fun r hr => (List.mem_filter.1 hr).1) hsame, hnamed]
  rfl

theorem run_closing (hs : (s.namedWeak o).WellFormed) :
    (closingInPlace o).run (s.namedWeak o) = .ok (s.graph.closing o) (s.namedWeak o) := by
  rw [closingInPlace, TypeGraph.closing, ← graph_namedWeak]
  split
  · exact run_ask_of_ok (structuralInTable_eq_ok hs)
  · rfl

theorem run_closed (s : TypeStore) (o : AnalysisOptions) :
    (assignInPlace ((s.graph.closing o).map (·, .weak))).run (s.namedWeak o) =
      .ok () ((s.namedWeak o).assign ((s.graph.closing o).map (·, .weak))) := by
  refine run_assignInPlace fun c hc => ?_
  obtain ⟨id, hid, rfl⟩ := List.mem_map.1 hc
  obtain ⟨-, f, hf, -⟩ := TypeGraph.of_mem_closing hid
  exact ⟨f, by rw [graph_namedWeak, hf]⟩

/-- Detection in place does not stop, and decides what the library says. -/
theorem settles_detectInPlace (hs : s.WellFormed) (o : AnalysisOptions) :
    s.Settles ((detectInPlace o).run s) (.ok (s.graph.detectBackEdges o)) := by
  have hannotated : s.annotated.WellFormed := hs.assign _
  have hnamed : (s.namedWeak o).WellFormed := hannotated.assign _
  have hrun : (detectInPlace o).run s = .ok (s.graph.detectBackEdges o).2
      ((s.namedWeak o).assign ((s.graph.closing o).map (·, .weak))) := by
    rw [detectInPlace, run_bind_get, hs.fields_eq, run_bind_of_ok s.run_annotated, run_bind_get,
      hannotated.references_eq, graph_annotated, run_bind_of_ok (run_namedWeak hs o),
      run_bind_of_ok (run_closing hnamed), run_bind_of_ok (s.run_closed o), TypeGraph.detectBackEdges_snd]
    rfl
  refine ⟨_, hrun, ?_, hnamed.assign _⟩
  rw [graph_assign, graph_namedWeak, TypeGraph.assign_weak]
  rfl

end TypeStore

end Reclamation
