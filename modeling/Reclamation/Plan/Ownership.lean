import Reclamation.Program.Body

/-!
# Owners

Which locals own the object that an allocation makes. The local to which it is assigned does; a move
or a copy of an owner to another local makes that one an owner too. Only moves and copies between
whole locals count: what is written into a field is owned by the object that has the field.
-/

set_option autoImplicit false

namespace Reclamation

/-- A statement that moves or copies one whole local to another. -/
structure Transfer where
  loc : Location
  source : LocalId
  dest : LocalId
  isMove : Bool
  deriving DecidableEq, Repr

/-- How references travel between the locals of a body. -/
structure Ownership where
  /-- The moves and copies, in order. -/
  transfers : List Transfer
  /-- The assignments to a part of a value, each with the local from which the part is found, in
  order. -/
  fieldWrites : List (Location × LocalId)
  deriving DecidableEq, Repr

/-- The move or copy between two different whole locals that a statement is, if it is one. -/
def Statement.transfer? (s : Statement) (loc : Location) : Option Transfer :=
  match s with
  | .assign p (.use (.copy q)) => between p q false
  | .assign p (.use (.move q)) => between p q true
  | _ => none
where
  /-- The transfer from one place to another. -/
  between (p q : Place) (isMove : Bool) : Option Transfer := do
    let dest ← p.local?
    let source ← q.local?
    if source = dest then none else some { loc, source, dest, isMove }

/-- The local through which a statement assigns a part of a value, if it does. -/
def Statement.fieldWrite? : Statement → Option LocalId
  | .assign p _ => if p.local?.isSome then none else some p.base
  | _ => none

/-- The moves, copies and assignments to parts of a body. -/
def Body.ownership (b : Body) : Ownership where
  transfers := b.statements.filterMap fun (loc, s) => s.transfer? loc
  fieldWrites := b.statements.filterMap fun (loc, s) => s.fieldWrite?.map fun l => (loc, l)

namespace Ownership

/-! ## The owners of a value -/

/-- The locals to which a local is moved or copied and that are not in a list, each once. -/
def freshDests (ts : List Transfer) (source : LocalId) (seen : List LocalId) : List LocalId :=
  ts.foldl
    (fun fresh t =>
      if t.source = source ∧ t.dest ∉ seen ∧ t.dest ∉ fresh then fresh ++ [t.dest] else fresh) []

/-- How many moves and copies lead to a local that is not in a list. -/
def pending (ts : List Transfer) (seen : List LocalId) : Nat :=
  ts.countP fun t => decide (t.dest ∉ seen)

theorem mem_foldl_freshDests {source : LocalId} {seen : List LocalId} {l : LocalId} :
    ∀ {ts : List Transfer} {fresh : List LocalId},
      l ∈ ts.foldl (fun fresh t =>
        if t.source = source ∧ t.dest ∉ seen ∧ t.dest ∉ fresh then fresh ++ [t.dest] else fresh)
        fresh →
      l ∈ fresh ∨ ∃ t ∈ ts, t.dest = l ∧ t.source = source ∧ l ∉ seen
  | [], _, h => .inl h
  | t :: ts, fresh, h => by
    rw [List.foldl_cons] at h
    rcases mem_foldl_freshDests h with h | ⟨t', ht', hl⟩
    · split at h
      · rename_i ht
        rcases List.mem_append.1 h with h | h
        · exact .inl h
        · have : l = t.dest := by simpa using h
          subst this
          exact .inr ⟨t, by simp, rfl, ht.1, ht.2.1⟩
      · exact .inl h
    · exact .inr ⟨t', by simp [ht'], hl⟩

/-- A fresh destination is that of a move or copy from the local, and is not in the list. -/
theorem mem_freshDests {ts : List Transfer} {source : LocalId} {seen : List LocalId} {l : LocalId}
    (h : l ∈ freshDests ts source seen) : ∃ t ∈ ts, t.dest = l ∧ t.source = source ∧ l ∉ seen := by
  rcases mem_foldl_freshDests h with h | h
  · simp at h
  · exact h

theorem pending_append_le (ts : List Transfer) (seen fresh : List LocalId) :
    pending ts (seen ++ fresh) ≤ pending ts seen :=
  List.countP_mono_left fun t _ h => by
    simp only [List.mem_append, not_or, decide_eq_true_eq] at h ⊢
    exact h.1

theorem pending_freshDests_lt {ts : List Transfer} {source : LocalId} {seen : List LocalId}
    (h : freshDests ts source seen ≠ []) :
    pending ts (seen ++ freshDests ts source seen) < pending ts seen := by
  obtain ⟨l, hl⟩ := List.exists_mem_of_ne_nil _ h
  obtain ⟨t, ht, hd, _, hs⟩ := mem_freshDests hl
  refine countP_lt_of_mem (fun t h => ?_) ht ?_ ?_
  · simp only [List.mem_append, not_or, decide_eq_true_eq] at h ⊢
    exact h.1
  · simpa [hd] using hs
  · simp [hd, hl]

/-- The locals that come to own a value: those found so far, and those to which the locals of the
queue and their successors are moved or copied. -/
def spread (ts : List Transfer) (queue seen : List LocalId) : List LocalId :=
  match queue with
  | [] => seen
  | source :: queue =>
    -- each local enters the queue when it enters `seen`, so once
    let fresh := freshDests ts source seen
    spread ts (queue ++ fresh) (seen ++ fresh)
termination_by (pending ts seen, queue.length)
decreasing_by
  rcases Classical.em (freshDests ts source seen = []) with h | h
  · refine lex_of_le_of_lt (pending_append_le ts seen _) ?_
    simp [h]
  · exact Prod.Lex.left _ _ (pending_freshDests_lt h)

/-- The locals that own the value written to a place, the one written to first; none if it is written
into a part of another value. -/
def ownersOf (o : Ownership) (p : Place) : List LocalId :=
  match p.local? with
  | some l => spread o.transfers [l] [l]
  | none => []

/-! ## What happens to an owner -/

/-- The copies of an owner: where, and to which local. -/
def copiesOf (o : Ownership) (owner : LocalId) : List (Location × LocalId) :=
  (o.transfers.filter fun t => t.source == owner && !t.isMove).map fun t => (t.loc, t.dest)

/-- Whether an owner is moved away at a position. -/
def isMovedAt (o : Ownership) (owner : LocalId) (loc : Location) : Bool :=
  o.transfers.any fun t => t.isMove && t.source == owner && t.loc == loc

/-- The last assignment to a part of a value through one of the owners. -/
def lastFieldWrite? (o : Ownership) (owners : List LocalId) : Option Location :=
  ((o.fieldWrites.filter fun (_, l) => owners.contains l).getLast?).map (·.1)

end Ownership

end Reclamation
