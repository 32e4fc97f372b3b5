import Mathlib
import Reclamation.Proofs.Plan.Lowering
import Reclamation.Proofs.Program.Places

/-!
# What the texts of lowered calls stand for

Lowering passes on texts alone: where the result of a call is put and what its arguments are. Each of them stands for
something that the plan means (`Referent`), a place of the body, the variable of the arena or of a handle, no object or
a number. What that is follows from the role of an argument, and for a result from what the call makes
(`PlannedCall.Spells`).

Nothing of it is lost in the texts. Those that are neither places nor numbers have final letters of their own
(`Referent.finalLetter?_text`), a number has no underscore, and places can be read back. So two texts are the same only
if they stand for the same thing, be they in one call or in two, of one plan or of two.
-/

set_option autoImplicit false

namespace Reclamation

/-! ## Referents -/

/-- What a text in a lowered call stands for. -/
inductive Referent where
  /-- A place of the body, where an object is put or from which it is passed. -/
  | place (p : Place)
  /-- The arena of the body. -/
  | arena
  /-- The handle to the object that a local holds. -/
  | handle (subject : Option LocalId)
  /-- The object of a call that is given no local. -/
  | null
  /-- A type, or a flag. -/
  | number (n : Nat)
  deriving DecidableEq, Repr

namespace Referent

/-- The C text. -/
def text : Referent → String
  | place p => p.text
  | arena => arenaVariable
  | handle subject => subject.elim "NULL" LocalId.text ++ "_handle"
  | null => "NULL"
  | number n => toString n

/-- The object that is passed to a call. -/
def ofSubject (subject : Option LocalId) : Referent :=
  subject.elim null fun l => place (.ofLocal l)

@[simp]
theorem text_place (p : Place) : (place p).text = p.text := rfl

@[simp]
theorem text_arena : arena.text = arenaVariable := rfl

@[simp]
theorem text_number (n : Nat) : (number n).text = toString n := rfl

@[simp]
theorem text_ofSubject (c : PlannedCall) : (ofSubject c.subject).text = c.subjectText := by
  rw [PlannedCall.subjectText, ofSubject]
  cases c.subject <;> rfl

@[simp]
theorem text_handle (c : PlannedCall) : (handle c.subject).text = c.subjectText ++ "_handle" := by
  rw [PlannedCall.subjectText, text]
  cases c.subject <;> rfl

/-! ## Reading a text back -/

/-- The letter with which the text ends, if it ends with one. -/
def finalLetter? : Referent → Option Char
  | place _ | number _ => none
  | arena => some 'a'
  | handle _ => some 'e'
  | null => some 'L'

theorem finalLetter?_text (o : Referent) : Text.finalLetter? o.text.toList = o.finalLetter? := by
  cases o with
  | place p => exact p.finalLetter?_text
  | arena | null => rfl
  | handle subject =>
    simpa [text, finalLetter?] using
      Text.finalLetter?_concat (subject.elim "NULL" LocalId.text ++ "_handl").toList 'e'
  | number n => simpa [finalLetter?] using Text.finalLetter?_append_toDigits [] n

/-- A place has the underscore of its local. -/
theorem text_place_ne_number (p : Place) (n : Nat) : (place p).text ≠ (number n).text := by
  intro h
  have hplace : '_' ∈ (place p).text.toList := by simp [Place.toList_text]
  have hnumber : '_' ∉ (number n).text.toList := by simp
  exact hnumber (h ▸ hplace)

theorem subject_inj {a b : Option LocalId} (h : a.elim "NULL" LocalId.text = b.elim "NULL" LocalId.text) :
    a = b := by
  cases a with
  | none =>
    cases b with
    | none => rfl
    | some l => exact absurd h.symm (LocalId.text_ne_null l)
  | some l =>
    cases b with
    | none => exact absurd h (LocalId.text_ne_null l)
    | some l' =>
      have hplace : Place.ofLocal l = Place.ofLocal l' := Place.text_inj.1 h
      exact congrArg some (Place.mk.inj hplace).1

/-- A text stands for one thing. -/
theorem text_inj {o o' : Referent} : o.text = o'.text ↔ o = o' := by
  refine ⟨fun h => ?_, congrArg text⟩
  -- the final letters tell all apart but places from numbers
  have hletter : o.finalLetter? = o'.finalLetter? := by
    rw [← finalLetter?_text, h, finalLetter?_text]
  cases o with
  | place p =>
    cases o' with
    | place q => rw [Place.text_inj.1 h]
    | number n => exact absurd h (text_place_ne_number p n)
    | arena | handle | null => simp [finalLetter?] at hletter
  | number n =>
    cases o' with
    | place p => exact absurd h.symm (text_place_ne_number p n)
    | number n' => rw [Nat.repr_inj.1 h]
    | arena | handle | null => simp [finalLetter?] at hletter
  | handle subject =>
    cases o' with
    | handle subject' => rw [subject_inj ((String.append_left_inj _).1 h)]
    | place | arena | null | number => simp [finalLetter?] at hletter
  | arena =>
    cases o' with
    | arena => rfl
    | place | handle | null | number => simp [finalLetter?] at hletter
  | null =>
    cases o' with
    | null => rfl
    | place | handle | arena | number => simp [finalLetter?] at hletter

end Referent

/-! ## What a call means by its texts -/

namespace PlannedCall

/-- What an argument of a call stands for. -/
def referent? (p : Plan) (c : PlannedCall) : ArgumentRole → Option Referent
  | .object => some (.ofSubject c.subject)
  | .arena => some .arena
  | .type => (c.site.bind p.site?).map fun s => .number s.type
  | .shared => (c.site.bind p.site?).map fun s => .number s.decision.atomic.toNat
  | .symmetric => (c.site.bind p.site?).map fun s => .number (s.strategy == .symmetric).toNat

/-- Where the result of a call is put: a new object goes to the place of its allocation. -/
def destination? (p : Plan) (c : PlannedCall) : Option Referent :=
  match c.call with
  | .alloc | .slotPoolAlloc | .symAlloc | .arenaAlloc => (c.site.bind p.site?).map fun s => .place s.place
  | .arenaCreate => some .arena
  | .makeHandle => some (.handle c.subject)
  | _ => none

/-- A text in a lowered call stands for something. -/
inductive Spells (p : Plan) (c : PlannedCall) (d : LoweredCall) : Referent → String → Prop where
  | argument {role : ArgumentRole} {o : Referent} {text : String} (htext : (role, text) ∈ d.arguments)
      (ho : c.referent? p role = some o) : Spells p c d o text
  | result {o : Referent} {text : String} (htext : d.result = some text) (ho : c.destination? p = some o) :
      Spells p c d o text

/-- The texts of a lowered call are those of what the call means. -/
structure PrintedAs (p : Plan) (c : PlannedCall) (d : LoweredCall) : Prop where
  args : List.Forall₂ (fun role text => ∃ o, c.referent? p role = some o ∧ o.text = text) d.call.roles d.args
  result : d.result = (c.destination? p).map Referent.text

variable {p : Plan} {c : PlannedCall} {d : LoweredCall}

theorem flag_eq_toString (b : Bool) : flag b = toString b.toNat := by
  cases b <;> rfl

theorem site_of_requireSite {s : AllocationSite} (h : c.requireSite p = .ok s) :
    c.site.bind p.site? = some s := by
  rw [requireSite] at h
  cases hs : c.site.bind p.site? with
  | none => simp [hs] at h
  | some s' => simpa [hs] using h

/-- What is lowered has as many arguments as its signature, and a result only if there is one. -/
theorem operands_of_lower (h : c.lower p = .ok d) : ∃ result, c.operands p = .ok (d.args, result) ∧
    c.call.signature.arity = d.args.length ∧ d.call = c.call ∧
    d.result = if c.call.signature.result = .void then none else result := by
  rw [lower] at h
  cases hoperands : c.operands p with
  | error e => simp [hoperands, bind, Except.bind] at h
  | ok r =>
    obtain ⟨args, result⟩ := r
    by_cases harity : c.call.signature.arity = args.length
    · simp only [hoperands, bind, Except.bind, EntryPoint.checkArity, if_pos harity, pure, Except.pure,
        Except.ok.injEq] at h
      subst h
      exact ⟨result, rfl, harity, rfl, rfl⟩
    · simp [hoperands, bind, Except.bind, EntryPoint.checkArity, if_neg harity] at h

theorem printedAs_of_lower (h : c.lower p = .ok d) : c.PrintedAs p d := by
  obtain ⟨result, hoperands, harity, hcall, hresult⟩ := operands_of_lower h
  rw [operands] at hoperands
  cases hf : c.call with
  | alloc | slotPoolAlloc | symAlloc | arenaAlloc =>
    rw [hf] at hoperands
    cases hs : c.requireSite p with
    | error e => simp [hs, bind, Except.bind] at hoperands
    | ok s =>
      simp only [hs, bind, Except.bind, pure, Except.pure, Except.ok.injEq, Prod.mk.injEq] at hoperands
      obtain ⟨hargs, rfl⟩ := hoperands
      constructor
      · simp [hcall, hf, ← hargs, EntryPoint.roles, referent?, site_of_requireSite hs, flag_eq_toString]
      · simp [hresult, hf, EntryPoint.signature, destination?, site_of_requireSite hs]
  | arenaCreate | arenaDestroy | makeHandle | freeTree | incRef | decRef | sccFreeze | sccRelease | symAcquire
  | symRelease | slotPoolFree | symEnterScope | symExitScope | safePoint | runtimeInit =>
    simp only [hf, Except.ok.injEq, Prod.mk.injEq] at hoperands
    obtain ⟨hargs, rfl⟩ := hoperands
    constructor
    · simp [hcall, hf, ← hargs, EntryPoint.roles, referent?]
    · simp [hresult, hf, EntryPoint.signature, destination?]
  | registerType | setField | arenaRegisterExternal | arenaResolveExternal | symLink | handleIsValid
  | handleDeref =>
    -- no arguments are known of these, and their signatures ask for some
    simp only [hf, Except.ok.injEq, Prod.mk.injEq] at hoperands
    rw [hf, ← hoperands.1] at harity
    exact absurd harity (by decide)

theorem PrintedAs.text_eq (h : c.PrintedAs p d) {o : Referent} {text : String}
    (hspells : c.Spells p d o text) : o.text = text := by
  cases hspells with
  | argument htext ho =>
    obtain ⟨o', ho', rfl⟩ := (List.forall₂_iff_zip.1 h.args).2 htext
    rw [Option.some.inj (ho.symm.trans ho')]
  | result htext ho =>
    rw [h.result, ho] at htext
    exact Option.some.inj htext

theorem PrintedAs.exists_spells (h : c.PrintedAs p d) {text : String}
    (htext : text ∈ d.args ∨ d.result = some text) : ∃ o, c.Spells p d o text := by
  rcases htext with harg | hresult
  · obtain ⟨hlength, hzip⟩ := List.forall₂_iff_zip.1 h.args
    rw [← List.map_snd_zip hlength.ge, List.mem_map] at harg
    obtain ⟨⟨role, text⟩, hmem, rfl⟩ := harg
    obtain ⟨o, ho, -⟩ := hzip hmem
    exact ⟨o, .argument hmem ho⟩
  · obtain ⟨o, ho, -⟩ := Option.map_eq_some_iff.1 (h.result.symm.trans hresult)
    exact ⟨o, .result hresult ho⟩

end PlannedCall

/-! ## Main result -/

/-- No two places have the same text. In lowered calls, be they of one plan or of two, each argument and each
destination stands for something, and two of them have the same text just if they stand for the same thing. -/
theorem lowered_texts_distinct :
    (∀ a b : Place, a.text = b.text ↔ a = b) ∧
    ∀ {p p' : Plan} {c c' : PlannedCall} {d d' : LoweredCall}, c.lower p = .ok d → c'.lower p' = .ok d' →
      (∀ text, text ∈ d.args ∨ d.result = some text → ∃ o, c.Spells p d o text ∧ o.text = text) ∧
      ∀ o o' text text', c.Spells p d o text → c'.Spells p' d' o' text' → (text = text' ↔ o = o') := by
  refine ⟨fun a b => Place.text_inj, fun hd hd' => ?_⟩
  have h := PlannedCall.printedAs_of_lower hd
  have h' := PlannedCall.printedAs_of_lower hd'
  refine ⟨fun text htext => ?_, fun o o' text text' hspells hspells' => ?_⟩
  · obtain ⟨o, hspells⟩ := h.exists_spells htext
    exact ⟨o, hspells, h.text_eq hspells⟩
  · rw [← h.text_eq hspells, ← h'.text_eq hspells', Referent.text_inj]

/-- An object that is written to a place. -/
def written (id : SiteId) (place : Place) : AllocationSite :=
  { id, type := 0, size := 48, loc := ⟨0, id⟩, place, owners := [], frozen := false, fact := {}, escape := .none
    decision := RouteInput.route {} false }

/-- The call that makes an object. -/
def making (id : SiteId) : PlannedCall :=
  { point := .instead ⟨0, id⟩, call := .alloc, site := some id }

/-- The call that frees the object of a local. -/
def freeing (l : LocalId) : PlannedCall :=
  { point := .after ⟨0, 2⟩, call := .freeTree, site := some 0, subject := some l }

/-- Objects are written to a local, to a field of what it points at and to what its field points at. -/
def nested : Plan where
  body := "nested"
  sites := [written 0 (.ofLocal 1), written 1 ⟨1, [.deref, .field 2]⟩, written 2 ⟨1, [.field 2, .deref]⟩]
  calls := [making 0, making 1, making 2, freeing 1]

/-- The two nested places are told apart, and what is freed is what the first object was written to. -/
theorem lowered_texts_distinct_nested : ∃ first second third last : LoweredCall,
    nested.lower = .ok [first, second, third, last] ∧ first.result = some "_1" ∧
    second.result = some "(*_1).2" ∧ third.result = some "(*_1.2)" ∧ last.args = ["_1"] ∧
    second.result ≠ third.result ∧
    ∀ o, (freeing 1).Spells nested last o "_1" → o = .place (.ofLocal 1) := by
  obtain ⟨-, hcalls⟩ := lowered_texts_distinct
  have hfirst : (making 0).lower nested = .ok ⟨.instead ⟨0, 0⟩, .alloc, ["0", "0"], some "_1"⟩ := rfl
  have hsecond : (making 1).lower nested = .ok ⟨.instead ⟨0, 1⟩, .alloc, ["0", "0"], some "(*_1).2"⟩ := rfl
  have hthird : (making 2).lower nested = .ok ⟨.instead ⟨0, 2⟩, .alloc, ["0", "0"], some "(*_1.2)"⟩ := rfl
  have hlast : (freeing 1).lower nested = .ok ⟨.after ⟨0, 2⟩, .freeTree, ["_1"], none⟩ := rfl
  refine ⟨_, _, _, _, rfl, rfl, rfl, rfl, rfl, fun h => ?_, fun o ho => ?_⟩
  · have hplaces := ((hcalls hsecond hthird).2 _ _ _ _ (.result rfl rfl) (.result rfl rfl)).1 (Option.some.inj h)
    exact absurd hplaces (by decide)
  · exact ((hcalls hlast hfirst).2 _ _ _ _ ho (.result rfl rfl)).1 rfl

end Reclamation
