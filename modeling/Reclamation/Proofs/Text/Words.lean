import Reclamation.Proofs.Text.Case
import Reclamation.TypeGraph.BackEdge

/-!
# Words and the names they are spelled in

A name is read from left to right, and what has been read of a word is all that the rest of the name depends on. So a
stretch that ends no word can be read at once (`wordsAfter_append`), and the common naming styles are read stretch by
stretch: the stretches lie between separators or begin with the humps.

A word that is configured is compared with the words of a name after both have been lowercased, the one as a whole text
and the others one character at a time. A name that is a single word therefore has the word that it was configured
with, unless a capital sigma ends it (`matchesWord_given_iff`).
-/

set_option autoImplicit false

namespace Reclamation.Text

/-! ## Stretches that end no word -/

/-- A stretch of a name that ends no word, where `hump` says whether a capital at its front would end one. -/
structure CarriesOn (hump : Bool) (text : List Char) : Prop where
  separator : ∀ c ∈ text, isSeparator c = false
  front : hump = true → ∀ c ∈ text.head?, isUppercase c = false
  humps : text.IsChain fun c d => endsHump c = true → isUppercase d = false

/-- Whether a capital right after a stretch would start a new word. -/
def humpAfter (hump : Bool) : List Char → Bool
  | [] => hump
  | c :: rest => humpAfter (endsHump c) rest

theorem carriesOn_nil {hump : Bool} : CarriesOn hump [] :=
  ⟨by simp, by simp, .nil⟩

theorem carriesOn_cons {hump : Bool} {c : Char} {rest : List Char} :
    CarriesOn hump (c :: rest) ↔
      isSeparator c = false ∧ (hump = true → isUppercase c = false) ∧ CarriesOn (endsHump c) rest := by
  constructor
  · rintro ⟨hsep, hfront, hhumps⟩
    obtain ⟨hnext, hhumps⟩ := List.isChain_cons.1 hhumps
    exact ⟨hsep c List.mem_cons_self, fun hh => hfront hh c rfl,
      fun d hd => hsep d (List.mem_cons_of_mem _ hd), fun hh d hd => hnext d hd hh, hhumps⟩
  · rintro ⟨hc, hfront, hsep, hnext, hhumps⟩
    refine ⟨List.forall_mem_cons.2 ⟨hc, hsep⟩, fun hh d hd => ?_,
      List.isChain_cons.2 ⟨fun d hd hh => hnext hh d hd, hhumps⟩⟩
    obtain rfl : c = d := by simpa using hd
    exact hfront hh

/-- A stretch that ends no word adds its lowercase form to the word that is being read. -/
theorem wordsAfter_append : ∀ (text rest word : List Char) (hump : Bool), CarriesOn hump text →
    wordsAfter word hump (text ++ rest) = wordsAfter (word ++ text.flatMap lower) (humpAfter hump text) rest
  | [], rest, word, hump, _ => by simp [humpAfter]
  | c :: text, rest, word, hump, h => by
    obtain ⟨hsep, hfront, htext⟩ := carriesOn_cons.1 h
    have hcapital : (isUppercase c && hump && !word.isEmpty) = false := by
      cases hump with
      | false => simp
      | true => simp [hfront rfl]
    rw [List.cons_append, wordsAfter, if_neg (by simp [hsep]), if_neg (by simp [hcapital]),
      wordsAfter_append text rest _ _ htext, List.flatMap_cons, List.append_assoc, humpAfter]

theorem flatMap_lower_ne_nil {text : List Char} (h : text ≠ []) : text.flatMap lower ≠ [] := by
  obtain ⟨c, rest, rfl⟩ := List.exists_cons_of_ne_nil h
  simp [lower_ne_nil]

theorem finishWord_of_ne_nil {word : List Char} (h : word ≠ []) : finishWord word = [word] := by
  simp [finishWord, h]

/-- A name that ends no word before its end is one word. -/
theorem wordsAfter_of_carriesOn {text : List Char} (h : CarriesOn false text) (hne : text ≠ []) :
    wordsAfter [] false text = [text.flatMap lower] := by
  have hread := wordsAfter_append text [] [] false h
  rw [List.append_nil, List.nil_append, wordsAfter, finishWord_of_ne_nil (flatMap_lower_ne_nil hne)] at hread
  exact hread

/-- Words between separators. -/
theorem wordsAfter_intercalate {separator : Char} (hs : isSeparator separator = true) :
    ∀ texts : List (List Char), (∀ text ∈ texts, CarriesOn false text ∧ text ≠ []) →
      wordsAfter [] false ([separator].intercalate texts) = texts.map (·.flatMap lower)
  | [], _ => rfl
  | [text], h => by
    obtain ⟨htext, hne⟩ := h text List.mem_cons_self
    rw [List.intercalate_singleton, wordsAfter_of_carriesOn htext hne]
    rfl
  | text :: next :: texts, h => by
    obtain ⟨htext, hne⟩ := h text List.mem_cons_self
    have hrest := wordsAfter_intercalate hs (next :: texts) fun t ht => h t (List.mem_cons_of_mem _ ht)
    rw [List.intercalate_cons_cons, List.append_assoc, wordsAfter_append _ _ _ _ htext, List.nil_append,
      List.singleton_append, wordsAfter, if_pos hs, finishWord_of_ne_nil (flatMap_lower_ne_nil hne), hrest]
    rfl

/-! ## What the words of a name consist of -/

theorem flatten_finishWord (word : List Char) : (finishWord word).flatten = word := by
  by_cases hword : word = []
  · simp [finishWord, hword]
  · simp [finishWord_of_ne_nil hword]

/-- The words hold what is not a separator, in lowercase and in order. -/
theorem flatten_wordsAfter : ∀ (text word : List Char) (hump : Bool),
    (wordsAfter word hump text).flatten = word ++ (text.filter (!isSeparator ·)).flatMap lower
  | [], word, _ => by simp [wordsAfter, flatten_finishWord]
  | c :: rest, word, hump => by
    have hrest := flatten_wordsAfter rest
    by_cases hsep : isSeparator c = true
    · simp [wordsAfter, hsep, flatten_finishWord, hrest]
    by_cases hcapital : (isUppercase c && hump && !word.isEmpty) = true
    · rw [wordsAfter, if_neg hsep, if_pos hcapital, List.flatten_cons, hrest]
      simp [hsep]
    · rw [wordsAfter, if_neg hsep, if_neg hcapital, hrest]
      simp [hsep]

/-- A word is not empty and has no separator. -/
theorem not_isSeparator_of_mem_words {name : String} {word : String} (h : word ∈ words name) :
    word ≠ "" ∧ ∀ c ∈ word.toList, isSeparator c = false := by
  obtain ⟨chars, hchars, rfl⟩ := List.mem_map.1 h
  refine ⟨fun he => wordsAfter_ne_nil _ _ _ hchars (by simpa using he), fun c hc => ?_⟩
  rw [String.toList_ofList] at hc
  have hflat : c ∈ (wordsAfter [] false name.toList).flatten := List.mem_flatten.2 ⟨chars, hchars, hc⟩
  rw [flatten_wordsAfter, List.nil_append] at hflat
  obtain ⟨d, hd, hlower⟩ := List.mem_flatMap.1 hflat
  exact isSeparator_of_mem_lower hlower (by simpa using (List.mem_filter.1 hd).2)

/-! ## Naming styles -/

/-- The common ways to make one name out of several words. -/
inductive NamingStyle where
  /-- The words with underscores between them: `parent_node`. -/
  | snake
  /-- The words with hyphens between them: `parent-node`. -/
  | kebab
  /-- The words in capitals with underscores between them: `PARENT_NODE`. -/
  | screaming
  /-- All words but the first with a capital: `parentNode`. -/
  | camel
  /-- All words with a capital: `ParentNode`. -/
  | pascal
  deriving DecidableEq, Repr

/-- A word with a capital at its front. -/
def capitalize : List Char → List Char
  | [] => []
  | c :: rest => c.toUpper :: rest

/-- The characters of the name that a style makes out of words. -/
def NamingStyle.join : NamingStyle → List (List Char) → List Char
  | .snake, ws => ['_'].intercalate ws
  | .kebab, ws => ['-'].intercalate ws
  | .screaming, ws => ['_'].intercalate (ws.map (·.map Char.toUpper))
  | .camel, [] => []
  | .camel, w :: ws => w ++ (ws.map capitalize).flatten
  | .pascal, ws => (ws.map capitalize).flatten

/-- The name that a style makes out of words. -/
def NamingStyle.spell (style : NamingStyle) (words : List String) : String :=
  String.ofList (style.join (words.map String.toList))

/-- What is read of a letter with the given lowercase form, be it a capital or a small letter. -/
structure ReadsAs (capital : Bool) (form c : Char) : Prop where
  separator : isSeparator c = false
  uppercase : isUppercase c = capital
  hump : endsHump c = !capital
  lower : lower c = [form]

instance (capital : Bool) (form c : Char) : Decidable (ReadsAs capital form c) :=
  decidable_of_iff
    (isSeparator c = false ∧ isUppercase c = capital ∧ endsHump c = (!capital) ∧ lower c = [form])
    ⟨fun ⟨hs, hu, hh, hl⟩ => ⟨hs, hu, hh, hl⟩, fun ⟨hs, hu, hh, hl⟩ => ⟨hs, hu, hh, hl⟩⟩

theorem readsAs_of_isLower {c : Char} (h : c.isLower = true) : ReadsAs false c c ∧ ReadsAs true c c.toUpper := by
  have hletters : ∀ n < 26, ReadsAs false (Char.ofNat (97 + n)) (Char.ofNat (97 + n)) ∧
      ReadsAs true (Char.ofNat (97 + n)) (Char.ofNat (97 + n)).toUpper := by
    decide +kernel
  have hrange : 97 ≤ c.toNat ∧ c.toNat ≤ 122 := by
    simp only [Char.isLower, Bool.and_eq_true, decide_eq_true_eq] at h
    exact ⟨h.1, h.2⟩
  have hc := hletters (c.toNat - 97) (by omega)
  rwa [Nat.add_sub_of_le hrange.1, Char.ofNat_toNat] at hc

section Letters

variable {w : List Char} (hw : ∀ c ∈ w, c.isLower = true)
include hw

theorem carriesOn_letters (hump : Bool) : CarriesOn hump w := by
  induction w generalizing hump with
  | nil => exact carriesOn_nil
  | cons c rest ih =>
    obtain ⟨hc, hrest⟩ := List.forall_mem_cons.1 hw
    have hread := (readsAs_of_isLower hc).1
    exact carriesOn_cons.2 ⟨hread.separator, fun _ => hread.uppercase, ih hrest _⟩

theorem carriesOn_capitals : CarriesOn false (w.map Char.toUpper) := by
  induction w with
  | nil => exact carriesOn_nil
  | cons c rest ih =>
    obtain ⟨hc, hrest⟩ := List.forall_mem_cons.1 hw
    have hread := (readsAs_of_isLower hc).2
    refine carriesOn_cons.2 ⟨hread.separator, nofun, ?_⟩
    rw [hread.hump]
    exact ih hrest

theorem humpAfter_letters (hne : w ≠ []) (hump : Bool) : humpAfter hump w = true := by
  induction w generalizing hump with
  | nil => exact absurd rfl hne
  | cons c rest ih =>
    obtain ⟨hc, hrest⟩ := List.forall_mem_cons.1 hw
    rw [humpAfter, (readsAs_of_isLower hc).1.hump]
    by_cases hlast : rest = []
    · simp [hlast, humpAfter]
    · exact ih hrest hlast _

theorem flatMap_lower_letters : w.flatMap lower = w :=
  flatMap_lower_of_settled fun c hc => (readsAs_of_isLower (hw c hc)).1.lower

theorem flatMap_lower_capitals : (w.map Char.toUpper).flatMap lower = w := by
  rw [List.flatMap_map, List.flatMap_congr fun c hc => (readsAs_of_isLower (hw c hc)).2.lower,
    List.flatMap_singleton']

/-- A word with a capital at its front ends the word before it. -/
theorem wordsAfter_capitalize (hlen : 2 ≤ w.length) {word : List Char} {hump : Bool} (hhump : word ≠ [] → hump = true)
    (rest : List Char) :
    wordsAfter word hump (capitalize w ++ rest) = finishWord word ++ wordsAfter w true rest := by
  obtain ⟨c, tail, rfl⟩ := List.exists_cons_of_length_pos (by omega : 0 < w.length)
  have htail : tail ≠ [] := by
    rintro rfl
    simp at hlen
  obtain ⟨hc, hletters⟩ := List.forall_mem_cons.1 hw
  have hread := (readsAs_of_isLower hc).2
  have hword : wordsAfter [c] false (tail ++ rest) = wordsAfter (c :: tail) true rest := by
    rw [wordsAfter_append _ _ _ _ (carriesOn_letters hletters false), humpAfter_letters hletters htail,
      flatMap_lower_letters hletters, List.singleton_append]
  rw [capitalize, List.cons_append, wordsAfter, if_neg (by simp [hread.separator]), hread.lower, hread.hump,
    hread.uppercase, Bool.not_true, hword]
  by_cases he : word = []
  · rw [if_neg (by simp [he]), he, List.nil_append, hword]
    simp [finishWord]
  · rw [if_pos (by simp [he, hhump he]), finishWord_of_ne_nil he, List.singleton_append]

end Letters

/-- Whether the styles keep a word apart from its neighbours: it has at least two letters, all from a to z. -/
def IsSpellable (w : List Char) : Prop :=
  2 ≤ w.length ∧ ∀ c ∈ w, c.isLower = true

theorem IsSpellable.ne_nil {w : List Char} (h : IsSpellable w) : w ≠ [] := by
  rintro rfl
  simp [IsSpellable] at h

theorem wordsAfter_capitalized : ∀ (ws : List (List Char)) {word : List Char}, (∀ w ∈ ws, IsSpellable w) → word ≠ [] →
    wordsAfter word true (ws.map capitalize).flatten = word :: ws
  | [], _, _, hword => finishWord_of_ne_nil hword
  | w :: ws, word, h, hword => by
    obtain ⟨hw, hws⟩ := List.forall_mem_cons.1 h
    rw [List.map_cons, List.flatten_cons, wordsAfter_capitalize hw.2 hw.1 fun _ => rfl, finishWord_of_ne_nil hword,
      wordsAfter_capitalized ws hws hw.ne_nil]
    rfl

theorem wordsAfter_join (style : NamingStyle) {ws : List (List Char)} (h : ∀ w ∈ ws, IsSpellable w) :
    wordsAfter [] false (style.join ws) = ws := by
  have hsmall : ∀ separator, isSeparator separator = true →
      wordsAfter [] false ([separator].intercalate ws) = ws := by
    intro separator hs
    rw [wordsAfter_intercalate hs ws fun w hw => ⟨carriesOn_letters (h w hw).2 false, (h w hw).ne_nil⟩,
      List.map_congr_left fun w hw => flatMap_lower_letters (h w hw).2, List.map_id']
  cases style with
  | snake => exact hsmall '_' rfl
  | kebab => exact hsmall '-' rfl
  | screaming =>
    have hcapitals : ∀ text ∈ ws.map (·.map Char.toUpper), CarriesOn false text ∧ text ≠ [] := by
      intro text ht
      obtain ⟨w, hw, rfl⟩ := List.mem_map.1 ht
      exact ⟨carriesOn_capitals (h w hw).2, by simpa using (h w hw).ne_nil⟩
    rw [NamingStyle.join, wordsAfter_intercalate rfl _ hcapitals, List.map_map]
    exact (List.map_congr_left fun w hw => flatMap_lower_capitals (h w hw).2).trans (List.map_id' ws)
  | camel =>
    cases ws with
    | nil => rfl
    | cons w ws =>
      obtain ⟨hw, hws⟩ := List.forall_mem_cons.1 h
      rw [NamingStyle.join, wordsAfter_append _ _ _ _ (carriesOn_letters hw.2 false), humpAfter_letters hw.2 hw.ne_nil,
        flatMap_lower_letters hw.2, List.nil_append, wordsAfter_capitalized ws hws hw.ne_nil]
  | pascal =>
    cases ws with
    | nil => rfl
    | cons w ws =>
      obtain ⟨hw, hws⟩ := List.forall_mem_cons.1 h
      rw [NamingStyle.join, List.map_cons, List.flatten_cons, wordsAfter_capitalize hw.2 hw.1 (absurd rfl),
        wordsAfter_capitalized ws hws hw.ne_nil]
      rfl

/-- A name says which words it was spelled from, in whichever style. -/
theorem words_spell (style : NamingStyle) {ws : List String} (h : ∀ w ∈ ws, IsSpellable w.toList) :
    words (style.spell ws) = ws := by
  have hlists : ∀ w ∈ ws.map String.toList, IsSpellable w := List.forall_mem_map.2 h
  rw [words, NamingStyle.spell, String.toList_ofList, wordsAfter_join style hlists, List.map_map]
  simp [Function.comp_def]

end Reclamation.Text

namespace Reclamation.AnalysisOptions

open Text

/-! ## Configured words -/

theorem matchesWord_iff {o : AnalysisOptions} {name : String} :
    o.matchesWord name = true ↔ ∃ word ∈ words name, ∃ v ∈ o.backEdgeWords, lowercaseString v = word := by
  simp [matchesWord, List.any_eq_true]

/-- Whatever style a name is spelled in, it has the words that it was spelled from and no others. The words of any name
are not empty, have no separators and hold, in lowercase, all of the name but its separators. -/
theorem words_of_name :
    (∀ ws : List String, (∀ w ∈ ws, 2 ≤ w.length ∧ ∀ c ∈ w.toList, c.isLower = true) → ∀ style : NamingStyle,
      words (style.spell ws) = ws ∧
        ∀ o : AnalysisOptions, o.matchesWord (style.spell ws) = true ↔
          ∃ w ∈ ws, ∃ v ∈ o.backEdgeWords, lowercaseString v = w) ∧
      ∀ name : String, (∀ part ∈ words name, part ≠ "" ∧ ∀ c ∈ part.toList, c ≠ '_' ∧ c ≠ '-') ∧
        (words name).flatMap String.toList = (name.toList.filter fun c => c ≠ '_' ∧ c ≠ '-').flatMap lower := by
  constructor
  · intro ws hws style
    have hspellable : ∀ w ∈ ws, IsSpellable w.toList := fun w hw => ⟨w.length_toList ▸ (hws w hw).1, (hws w hw).2⟩
    have hspell := words_spell style hspellable
    exact ⟨hspell, fun o => by rw [matchesWord_iff, hspell]⟩
  · intro name
    have hseparator : ∀ c, isSeparator c = false ↔ c ≠ '_' ∧ c ≠ '-' := fun c => by simp [isSeparator]
    refine ⟨fun part hpart => ?_, ?_⟩
    · obtain ⟨hne, hsep⟩ := not_isSeparator_of_mem_words hpart
      exact ⟨hne, fun c hc => (hseparator c).1 (hsep c hc)⟩
    · have hfilter : (name.toList.filter fun c => c ≠ '_' ∧ c ≠ '-') = name.toList.filter (!isSeparator ·) :=
        List.filter_congr fun c _ => by simp [← hseparator]
      calc (words name).flatMap String.toList
          = (wordsAfter [] false name.toList).flatten := by simp [words, List.flatMap_map]
        _ = (name.toList.filter fun c => c ≠ '_' ∧ c ≠ '-').flatMap lower := by
          rw [flatten_wordsAfter, List.nil_append, hfilter]

theorem words_of_name_parentNode :
    (∀ w ∈ ["parent", "node"], 2 ≤ w.length ∧ ∀ c ∈ w.toList, c.isLower = true) ∧
      NamingStyle.camel.spell ["parent", "node"] = "parentNode" ∧ words "parentNode" = ["parent", "node"] := by
  have hws : ∀ w ∈ ["parent", "node"], 2 ≤ w.length ∧ ∀ c ∈ w.toList, c.isLower = true := by
    simp only [List.forall_mem_cons]
    exact ⟨⟨by decide, by simp⟩, ⟨by decide, by simp⟩, by simp⟩
  have hspell : NamingStyle.camel.spell ["parent", "node"] = "parentNode" := by decide +kernel
  exact ⟨hws, hspell, hspell ▸ (words_of_name.1 _ hws .camel).1⟩

theorem mem_withWord {o : AnalysisOptions} {w v : String} :
    v ∈ (o.withWord w).backEdgeWords ↔ v ∈ o.backEdgeWords ∨ v = lowercaseString w := by
  by_cases hmem : lowercaseString w ∈ o.backEdgeWords
  · rw [withWord, if_pos hmem]
    exact ⟨.inl, fun h => h.elim id (· ▸ hmem)⟩
  · rw [withWord, if_neg hmem]
    simp

/-- A name that is a single word has a word given to the options, whichever way, if it is that word: unless a capital
sigma ends it, which is written `ς` in the word of the options and `σ` in the word of the name. Then it needs another
given word that has `σ` there. -/
theorem matchesWord_given_iff {w : String} (hne : w ≠ "") (hsep : ∀ c ∈ w.toList, c ≠ '_' ∧ c ≠ '-')
    (hhump : w.toList.IsChain fun c d => isLowercase c = true ∨ c.isDigit = true → isUppercase d = false) :
    (∀ o : AnalysisOptions, (o.withWord w).matchesWord w = true ↔
        ¬ HasFinalSigma w.toList ∨ ∃ v ∈ o.backEdgeWords, lowercase v.toList = w.toList.flatMap lower) ∧
      ∀ (o : AnalysisOptions) (ws : List String), w ∈ ws → ((o.withWords ws).matchesWord w = true ↔
        ¬ HasFinalSigma w.toList ∨ ∃ v ∈ ws, lowercase v.toList = w.toList.flatMap lower) := by
  have hcarries : CarriesOn false w.toList :=
    ⟨fun c hc => by simp [isSeparator, hsep c hc], nofun, hhump.imp fun c d h => by simpa [endsHump] using h⟩
  have hword : words w = [String.ofList (w.toList.flatMap lower)] := by
    rw [words, wordsAfter_of_carriesOn hcarries (by simpa using hne)]
    rfl
  -- what is left of a comparison when both words are read as lists of characters
  have hsame : ∀ v : String,
      lowercaseString v = String.ofList (w.toList.flatMap lower) ↔ lowercase v.toList = w.toList.flatMap lower :=
    fun v => ⟨fun h => String.ofList_injective h, fun h => congrArg String.ofList h⟩
  have hmatches : ∀ o : AnalysisOptions, o.matchesWord w = true ↔
      ∃ v ∈ o.backEdgeWords, lowercase v.toList = w.toList.flatMap lower := by
    intro o
    simp only [matchesWord_iff, hword, List.mem_singleton, exists_eq_left, hsame]
  have hgiven : ∀ v : String, lowercase (lowercaseString v).toList = lowercase v.toList := by
    intro v
    rw [lowercaseString, String.toList_ofList, lowercase_lowercase]
  refine ⟨fun o => ?_, fun o ws hw => ?_⟩
  · rw [hmatches, ← lowercase_eq_flatMap_iff]
    constructor
    · rintro ⟨v, hv, he⟩
      rcases mem_withWord.1 hv with hv | rfl
      · exact .inr ⟨v, hv, he⟩
      · exact .inl (hgiven w ▸ he)
    · rintro (he | ⟨v, hv, he⟩)
      · exact ⟨_, mem_withWord.2 (.inr rfl), (hgiven w).trans he⟩
      · exact ⟨v, mem_withWord.2 (.inl hv), he⟩
  · rw [hmatches, ← lowercase_eq_flatMap_iff]
    constructor
    · rintro ⟨v, hv, he⟩
      obtain ⟨u, hu, rfl⟩ := List.mem_map.1 hv
      exact .inr ⟨u, hu, hgiven u ▸ he⟩
    · rintro (he | ⟨v, hv, he⟩)
      · exact ⟨_, List.mem_map_of_mem hw, (hgiven w).trans he⟩
      · exact ⟨_, List.mem_map_of_mem hv, (hgiven v).trans he⟩

theorem matchesWord_given_iff_initial :
    ("ΣΚΙΆ" ≠ "" ∧ (∀ c ∈ "ΣΚΙΆ".toList, c ≠ '_' ∧ c ≠ '-') ∧
      "ΣΚΙΆ".toList.IsChain fun c d => isLowercase c = true ∨ c.isDigit = true → isUppercase d = false) ∧
      (({} : AnalysisOptions).withWord "ΣΚΙΆ").matchesWord "ΣΚΙΆ" = true := by
  have hw : "ΣΚΙΆ" ≠ "" ∧ (∀ c ∈ "ΣΚΙΆ".toList, c ≠ '_' ∧ c ≠ '-') ∧
      "ΣΚΙΆ".toList.IsChain fun c d => isLowercase c = true ∨ c.isDigit = true → isUppercase d = false :=
    ⟨by decide, by simp, by decide +kernel⟩
  refine ⟨hw, ((matchesWord_given_iff hw.1 hw.2.1 hw.2.2).1 _).2 (.inl ?_)⟩
  rw [← lowercase_eq_flatMap_iff]
  decide +kernel

/-- A word that ends with a capital sigma is not found in the name that is that word. -/
theorem given_word_unmatched :
    ("ΟΔΟΣ" ≠ "" ∧ (∀ c ∈ "ΟΔΟΣ".toList, c ≠ '_' ∧ c ≠ '-') ∧
      "ΟΔΟΣ".toList.IsChain fun c d => isLowercase c = true ∨ c.isDigit = true → isUppercase d = false) ∧
      (({} : AnalysisOptions).withWord "ΟΔΟΣ").matchesWord "ΟΔΟΣ" = false ∧
      (({} : AnalysisOptions).withWords ["ΟΔΟΣ"]).matchesWord "ΟΔΟΣ" = false :=
  ⟨⟨by decide, by simp, by decide +kernel⟩, by decide +kernel, by decide +kernel⟩

end Reclamation.AnalysisOptions
