import Mathlib
import Reclamation.Text.Words

/-!
# What lowercasing leaves alone

The small letters of the table are no capitals of the table, so a lowercase form is its own lowercase form
(`lower_of_mem_lower`), and a text needs to be lowercased only once (`lowercase_lowercase`). That is a property of the
table which is computed run by run (`LowerRun.isSettled`): a run and its small letters are intervals of code points,
and two of them have nothing in common if they lie apart, or if one has even and the other odd code points only.

The two ways to lowercase differ where a capital sigma ends a word and nowhere else (`lowercase_eq_flatMap_iff`).
-/

set_option autoImplicit false

namespace Reclamation.Text

/-! ## Runs that have no code point in common -/

/-- Whether the code points of a run are all even or all odd. -/
def Run.hasOneParity (r : Run) : Bool :=
  r.step == 2 || r.first == r.last

/-- A simple reason for which two runs have no code point in common. -/
def Run.isApart (r s : Run) : Bool :=
  r.last < s.first || s.last < r.first || (r.hasOneParity && s.hasOneParity && (r.first + s.first) % 2 == 1)

theorem Run.contains_iff {r : Run} {n : Nat} :
    r.contains n = true ↔ r.first ≤ n ∧ n ≤ r.last ∧ (n - r.first) % r.step = 0 := by
  simp only [contains, Bool.and_eq_true, decide_eq_true_eq, beq_iff_eq, and_assoc]

theorem Run.mod_two_of_contains {r : Run} {n : Nat} (hr : r.hasOneParity = true) (h : r.contains n = true) :
    n % 2 = r.first % 2 := by
  obtain ⟨hfirst, hlast, hstep⟩ := contains_iff.1 h
  simp only [hasOneParity, Bool.or_eq_true, beq_iff_eq] at hr
  rcases hr with htwo | hone
  · rw [htwo] at hstep
    omega
  · omega

theorem Run.not_contains_of_isApart {r s : Run} {n : Nat} (h : r.isApart s = true) (hr : r.contains n = true) :
    s.contains n = false := by
  rw [← Bool.not_eq_true]
  intro hs
  obtain ⟨hrfirst, hrlast, -⟩ := contains_iff.1 hr
  obtain ⟨hsfirst, hslast, -⟩ := contains_iff.1 hs
  simp only [isApart, Bool.or_eq_true, Bool.and_eq_true, decide_eq_true_eq, beq_iff_eq] at h
  rcases h with (hlt | hlt) | ⟨⟨hrone, hsone⟩, hodd⟩
  · omega
  · omega
  · have hrmod := mod_two_of_contains hrone hr
    have hsmod := mod_two_of_contains hsone hs
    omega

/-! ## The table -/

/-- The small letters of a run of capitals. -/
def LowerRun.image (r : LowerRun) : Run :=
  { first := (r.run.first + r.offset).toNat, last := (r.run.last + r.offset).toNat, step := r.run.step }

/-- The characters that are looked at apart from the table. -/
def specialRuns : List Run :=
  [⟨'İ'.toNat, 'İ'.toNat, 1⟩, ⟨'_'.toNat, '_'.toNat, 1⟩, ⟨'-'.toNat, '-'.toNat, 1⟩]

/-- The small letters of a run are characters, and neither capitals of the table nor special ones. -/
def LowerRun.isSettled (r : LowerRun) : Bool :=
  decide (0 ≤ r.run.first + r.offset) && (r.image.last < 0xD800 || 0xDFFF < r.image.first && r.image.last < 0x110000) &&
    (lowerRuns.all fun s => r.image.isApart s.run) && specialRuns.all r.image.isApart

theorem isSettled_lowerRuns : ∀ r ∈ lowerRuns, r.isSettled = true := by
  decide +kernel

theorem LowerRun.contains_image {r : LowerRun} {n : Nat} (h0 : 0 ≤ r.run.first + r.offset)
    (h : r.run.contains n = true) : r.image.contains (n + r.offset).toNat = true := by
  obtain ⟨hfirst, hlast, hstep⟩ := Run.contains_iff.1 h
  refine Run.contains_iff.2 ⟨?_, ?_, ?_⟩
  · change (r.run.first + r.offset).toNat ≤ (n + r.offset).toNat
    omega
  · change (n + r.offset).toNat ≤ (r.run.last + r.offset).toNat
    omega
  · change ((n + r.offset).toNat - (r.run.first + r.offset).toNat) % r.run.step = 0
    rw [show (n + r.offset).toNat - (r.run.first + r.offset).toNat = n - r.run.first by omega]
    exact hstep

theorem toNat_ofNat_of_mem {r : LowerRun} {n : Nat} (hr : r ∈ lowerRuns) (h : r.image.contains n = true) :
    (Char.ofNat n).toNat = n := by
  have hs := isSettled_lowerRuns r hr
  simp only [LowerRun.isSettled, Bool.and_eq_true, Bool.or_eq_true, decide_eq_true_eq] at hs
  obtain ⟨hfirst, hlast, -⟩ := Run.contains_iff.1 h
  have hvalid : n.isValidChar := by
    rcases hs.1.1.2 with hlow | ⟨hhigh, hend⟩
    · exact .inl (by omega)
    · exact .inr ⟨by omega, by omega⟩
  rw [Char.toNat_ofNat, if_pos hvalid]

/-! ## Lowercase forms -/

theorem lower_eq_self {c : Char} (hc : c ≠ 'İ') (h : ∀ r ∈ lowerRuns, r.run.contains c.toNat = false) :
    lower c = [c] := by
  have hfind : lowerRuns.find? (·.run.contains c.toNat) = none :=
    List.find?_eq_none.2 fun r hr => by simp [h r hr]
  rw [lower, if_neg hc, hfind]

/-- The lowercase forms: of the dotted capital I, of a capital of the table, and of any other character. -/
theorem lower_cases (c : Char) :
    (c = 'İ' ∧ lower c = ['i', Char.ofNat 0x307]) ∨
      (∃ r ∈ lowerRuns, r.run.contains c.toNat = true ∧ lower c = [Char.ofNat (c.toNat + r.offset).toNat]) ∨
      (c ≠ 'İ' ∧ lower c = [c]) := by
  by_cases hc : c = 'İ'
  · exact .inl ⟨hc, by rw [lower, if_pos hc]⟩
  cases hfind : lowerRuns.find? (·.run.contains c.toNat) with
  | some r =>
    refine .inr (.inl ⟨r, List.mem_of_find?_eq_some hfind, ?_, ?_⟩)
    · simpa using List.find?_some hfind
    · rw [lower, if_neg hc, hfind]
  | none => exact .inr (.inr ⟨hc, by rw [lower, if_neg hc, hfind]⟩)

/-- A small letter of the table is none of the characters that are looked at. -/
theorem not_contains_of_mem_lower {r : LowerRun} {n : Nat} (hr : r ∈ lowerRuns) (h : r.run.contains n = true) :
    (∀ s ∈ lowerRuns, s.run.contains (Char.ofNat (n + r.offset).toNat).toNat = false) ∧
      ∀ s ∈ specialRuns, s.contains (Char.ofNat (n + r.offset).toNat).toNat = false := by
  have hs := isSettled_lowerRuns r hr
  simp only [LowerRun.isSettled, Bool.and_eq_true, decide_eq_true_eq, List.all_eq_true] at hs
  obtain ⟨⟨⟨h0, -⟩, htable⟩, hspecial⟩ := hs
  have himage := LowerRun.contains_image h0 h
  rw [toNat_ofNat_of_mem hr himage]
  exact ⟨fun s hs => Run.not_contains_of_isApart (htable s hs) himage,
    fun s hs => Run.not_contains_of_isApart (hspecial s hs) himage⟩

theorem ne_of_not_contains {c d : Char} (h : (⟨d.toNat, d.toNat, 1⟩ : Run).contains c.toNat = false) : c ≠ d := by
  rintro rfl
  simp [Run.contains] at h

/-- A lowercase form consists of characters that are their own lowercase forms. -/
theorem lower_of_mem_lower {c d : Char} (h : d ∈ lower c) : lower d = [d] := by
  obtain ⟨-, hlower⟩ | ⟨r, hr, hrun, hlower⟩ | ⟨-, hlower⟩ := lower_cases c
  · rw [hlower] at h
    rcases List.mem_pair.1 h with rfl | rfl <;> decide +kernel
  · rw [hlower, List.mem_singleton] at h
    subst h
    obtain ⟨htable, hspecial⟩ := not_contains_of_mem_lower hr hrun
    exact lower_eq_self (ne_of_not_contains (hspecial _ (by simp [specialRuns]))) htable
  · rw [hlower, List.mem_singleton] at h
    rw [h, hlower]

/-- No character becomes a separator in lowercase. -/
theorem isSeparator_of_mem_lower {c d : Char} (h : d ∈ lower c) (hc : isSeparator c = false) :
    isSeparator d = false := by
  obtain ⟨-, hlower⟩ | ⟨r, hr, hrun, hlower⟩ | ⟨-, hlower⟩ := lower_cases c
  · rw [hlower] at h
    rcases List.mem_pair.1 h with rfl | rfl <;> decide
  · rw [hlower, List.mem_singleton] at h
    subst h
    obtain ⟨-, hspecial⟩ := not_contains_of_mem_lower hr hrun
    have hunderscore := ne_of_not_contains (hspecial ⟨'_'.toNat, '_'.toNat, 1⟩ (by simp [specialRuns]))
    have hhyphen := ne_of_not_contains (hspecial ⟨'-'.toNat, '-'.toNat, 1⟩ (by simp [specialRuns]))
    simp [isSeparator, hunderscore, hhyphen]
  · rw [hlower, List.mem_singleton] at h
    rw [h, hc]

theorem flatMap_lower_of_settled {text : List Char} (h : ∀ c ∈ text, lower c = [c]) : text.flatMap lower = text := by
  rw [List.flatMap_congr h, List.flatMap_singleton']

/-! ## Whole texts -/

theorem lower_sigma : lower 'Σ' = ['σ'] := by
  decide +kernel

/-- A text in lowercase consists of characters that are their own lowercase forms. -/
theorem lower_of_mem_lowercaseAfter {d : Char} : ∀ (text before : List Char), d ∈ lowercaseAfter before text →
    lower d = [d]
  | [], _, h => by simp [lowercaseAfter] at h
  | c :: rest, before, h => by
    rcases List.mem_append.1 h with h | h
    · split at h
      · rw [List.mem_singleton] at h
        split at h <;> subst h <;> decide +kernel
      · exact lower_of_mem_lower h
    · exact lower_of_mem_lowercaseAfter rest (c :: before) h

/-- A text in lowercase stays as it is when it is lowercased again. -/
theorem lowercase_lowercase (text : List Char) : lowercase (lowercase text) = lowercase text := by
  have hsettled : ∀ d ∈ lowercase text, lower d = [d] := fun d => lower_of_mem_lowercaseAfter text []
  have hsigma : 'Σ' ∉ lowercase text := by
    intro h
    exact absurd (lower_sigma.symm.trans (hsettled _ h)) (by decide)
  rw [lowercase_eq_flatMap _ hsigma, flatMap_lower_of_settled hsettled]

/-- The text has a capital sigma that ends a word: a letter stands before it and none after it. -/
def HasFinalSigma (text : List Char) : Prop :=
  ∃ before rest, text = before ++ 'Σ' :: rest ∧ letterFollows before.reverse = true ∧ letterFollows rest = false

theorem lowercaseAfter_eq_flatMap_iff : ∀ (text before : List Char),
    lowercaseAfter before text = text.flatMap lower ↔
      ∀ passed rest, text = passed ++ 'Σ' :: rest →
        letterFollows (passed.reverse ++ before) = true → letterFollows rest = true
  | [], before => by simp [lowercaseAfter]
  | c :: rest, before => by
    have hrest := lowercaseAfter_eq_flatMap_iff rest (c :: before)
    -- a sigma is at the front or further on
    have hsplit : (∀ passed rest', c :: rest = passed ++ 'Σ' :: rest' →
          letterFollows (passed.reverse ++ before) = true → letterFollows rest' = true) ↔
        (c = 'Σ' → letterFollows before = true → letterFollows rest = true) ∧
          ∀ passed rest', rest = passed ++ 'Σ' :: rest' →
            letterFollows (passed.reverse ++ c :: before) = true → letterFollows rest' = true := by
      constructor
      · intro h
        refine ⟨fun hc => h [] rest (by rw [hc]; rfl), fun passed rest' he => ?_⟩
        have hcons := h (c :: passed) rest' (by rw [he]; rfl)
        rwa [List.reverse_cons, List.append_assoc] at hcons
      · rintro ⟨hhere, hlater⟩ (_ | ⟨d, passed⟩) rest' he
        · obtain ⟨hc, rfl⟩ := List.cons.inj he
          exact hhere hc
        · obtain ⟨rfl, hrest'⟩ := List.cons.inj he
          rw [List.reverse_cons, List.append_assoc]
          exact hlater passed rest' hrest'
    rw [hsplit, ← hrest, lowercaseAfter, List.flatMap_cons]
    by_cases hc : c = 'Σ'
    · subst hc
      rw [lower_sigma]
      cases letterFollows before <;> cases letterFollows rest <;> simp
    · simp [hc]

/-- The two ways to lowercase a text agree exactly if no capital sigma ends a word in it. -/
theorem lowercase_eq_flatMap_iff (text : List Char) :
    lowercase text = text.flatMap lower ↔ ¬ HasFinalSigma text := by
  rw [lowercase, lowercaseAfter_eq_flatMap_iff]
  constructor
  · rintro h ⟨before, rest, he, hbefore, hrest⟩
    have := h before rest he (by rwa [List.append_nil])
    simp [hrest] at this
  · intro h before rest he hbefore
    rw [List.append_nil] at hbefore
    by_contra hrest
    exact h ⟨before, rest, he, hbefore, by simpa using hrest⟩

end Reclamation.Text
