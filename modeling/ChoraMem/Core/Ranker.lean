/-
The default ranker.

Two texts of Latin letters are compared by their topic terms, all others by their
character bigrams.  Either way the score is the Dice coefficient of what the texts are
reduced to, so it is a similarity whichever letters the tables of Unicode know.
-/
import ChoraMem.Core.Render
import ChoraMem.Similarity.Dice

namespace ChoraMem

/-- The tables of the package `unicode`. -/
structure Unicode where
  isLetter : Char → Bool
  isLatin : Char → Bool
  isDigit : Char → Bool
  toLower : Char → Char

def defaultNGramSize : Nat := 2

/-- These terms carry sentence structure, not the topic. -/
def latinStopTerms : List String :=
  ["a", "about", "after", "all", "also", "am", "an", "and", "any", "are", "as", "at", "be", "been",
    "being", "but", "by", "can", "could", "did", "do", "does", "doing", "for", "from", "had", "has",
    "have", "having", "he", "her", "here", "him", "his", "how", "i", "if", "in", "into", "is", "it",
    "its", "me", "more", "most", "my", "no", "not", "of", "on", "or", "our", "out", "over",
    "please", "she", "should", "so", "some", "than", "that", "the", "their", "them", "then", "there",
    "these", "they", "this", "those", "to", "too", "under", "up", "very", "was", "we", "were",
    "what", "when", "where", "which", "while", "who", "why", "will", "with", "would", "you", "your",
    "enjoyment", "future", "preference", "preferences", "previously", "recommend", "recommendation",
    "recommendations", "stated", "use", "user"]

namespace Unicode

variable (u : Unicode)

/-! ## Terms -/

/-- At least half of the letters are Latin. -/
def latinDominated (text : String) : Bool :=
  let letters := text.toList.countP u.isLetter
  let latinLetters := text.toList.countP fun c => u.isLetter c && u.isLatin c
  !(letters == 0 || decide (latinLetters * 2 < letters))

/-- The runs of letters and digits, in lower case. -/
def fields (text : String) : List String :=
  (((text.toList.map u.toLower).splitOnP fun c => !u.isLetter c && !u.isDigit c).filter
    fun field => !field.isEmpty).map String.ofList

def topicTerms (text : String) : List String :=
  ((u.fields text).filter fun field =>
    !(decide (field.length < 2) || latinStopTerms.contains field)).dedup

/-- The terms of a text, or nothing when it is not Latin. -/
def latinTerms (text : String) : Option (List String) :=
  if u.latinDominated text then some (u.topicTerms text) else none

/-! ## Grams -/

/-- Without its white space, in lower case. -/
def normalizeText (text : String) : List Char :=
  ((trimSpace text).toList.filter fun c => !isSpace c).map u.toLower

/-- The grams of a text, each as often as it comes.  A shorter text is one gram. -/
def nGrams (runes : List Char) (size : Nat) : List String :=
  if runes = [] then []
  else
    let size := if size = 0 then defaultNGramSize else size
    if runes.length < size then [String.ofList runes]
    else (List.range (runes.length - size + 1)).map fun index =>
      String.ofList ((runes.drop index).take size)

/-- `nGramDiceRanker.Score`, in exact numbers. -/
def nGramDiceScore (size : Nat) (query candidate : String) : Rat :=
  let left := nGrams (u.normalizeText query) size
  let right := nGrams (u.normalizeText candidate) size
  if left = [] ∨ right = [] then 0
  else
    let common := (left.dedup.map fun gram => min (left.count gram) (right.count gram)).sum
    2 * (common : Rat) / ((left.length + right.length : Nat) : Rat)

/-- `multilingualRanker.Score`, in exact numbers. -/
def score (query candidate : String) : Rat :=
  match u.latinTerms query, u.latinTerms candidate with
  | some left, some right =>
    if left = [] ∨ right = [] then 0
    else
      let common := (left.filter fun term => right.contains term).length
      2 * (common : Rat) / ((left.length + right.length : Nat) : Rat)
  | _, _ => u.nGramDiceScore defaultNGramSize query candidate

/-! ## The scores are coefficients -/

open Similarity

/-- What is compared of Latin texts. -/
def terms (text : String) : Multiset String := (u.topicTerms text : List String)

/-- What is compared of others. -/
def grams (text : String) : Multiset String :=
  (nGrams (u.normalizeText text) defaultNGramSize : List String)

theorem nGramDiceScore_eq (query candidate : String) :
    u.nGramDiceScore defaultNGramSize query candidate = dice (u.grams query) (u.grams candidate) := by
  simp only [nGramDiceScore, dice, grams, Multiset.coe_eq_zero, card_inter_eq_sum, Multiset.coe_card]

theorem score_latin {query candidate : String} (hq : u.latinDominated query = true)
    (hc : u.latinDominated candidate = true) :
    u.score query candidate = dice (u.terms query) (u.terms candidate) := by
  have hnodup : (u.topicTerms query).Nodup := List.nodup_dedup _
  simp only [score, latinTerms, hq, hc, if_true, dice, terms, Multiset.coe_eq_zero,
    card_inter_of_nodup hnodup, Multiset.coe_card, List.contains_eq_mem]

theorem score_other {query candidate : String}
    (h : ¬(u.latinDominated query = true ∧ u.latinDominated candidate = true)) :
    u.score query candidate = dice (u.grams query) (u.grams candidate) := by
  rw [← nGramDiceScore_eq]
  unfold score latinTerms
  by_cases hq : u.latinDominated query = true
  · have hc : u.latinDominated candidate = false := by
      by_contra hne
      exact h ⟨hq, by simpa using hne⟩
    rw [hc, if_neg Bool.false_ne_true, if_pos hq]
  · rw [if_neg hq]

/-- The score is a coefficient of terms or of grams, whichever both texts have. -/
theorem score_eq (query candidate : String) :
    u.score query candidate =
      if u.latinDominated query = true ∧ u.latinDominated candidate = true then
        dice (u.terms query) (u.terms candidate)
      else dice (u.grams query) (u.grams candidate) := by
  by_cases h : u.latinDominated query = true ∧ u.latinDominated candidate = true
  · rw [if_pos h, u.score_latin h.1 h.2]
  · rw [if_neg h, u.score_other h]

theorem nGrams_eq_nil {runes : List Char} {size : Nat} : nGrams runes size = [] ↔ runes = [] := by
  constructor
  · intro h
    by_contra hne
    rw [nGrams, if_neg hne] at h
    generalize (if size = 0 then defaultNGramSize else size) = size at h
    by_cases hshort : runes.length < size
    · rw [if_pos hshort] at h
      cases h
    · rw [if_neg hshort, List.map_eq_nil_iff, List.range_eq_nil] at h
      omega
  · intro h
    rw [nGrams, if_pos h]

/-- A text has a gram when it has a character that is not white space. -/
theorem grams_eq_zero (text : String) :
    u.grams text = 0 ↔ ∀ c ∈ text.toList, isSpace c = true := by
  rw [grams, Multiset.coe_eq_zero, nGrams_eq_nil, normalizeText, List.map_eq_nil_iff,
    List.filter_eq_nil_iff, toList_trimSpace]
  obtain ⟨a, b, hsplit, ha, hb⟩ := Text.strip_spec isSpace text.toList
  constructor
  · intro h c hc
    rw [hsplit, List.mem_append, List.mem_append] at hc
    rcases hc with (hc | hc) | hc
    · exact ha c hc
    · simpa using h c hc
    · exact hb c hc
  · intro h c hc
    have hmem : c ∈ text.toList := by
      rw [hsplit]
      exact List.mem_append_left _ (List.mem_append_right _ hc)
    simp [h c hmem]

end Unicode

/-- The score is between 0 and 1 and the same both ways, and a text is like itself just when
it has something to compare. -/
theorem score_similarity (u : Unicode) :
    (∀ query candidate, 0 ≤ u.score query candidate ∧ u.score query candidate ≤ 1 ∧
      u.score query candidate = u.score candidate query) ∧
    ∀ text, u.score text text =
      if (u.latinDominated text = true ∧ u.topicTerms text ≠ []) ∨
        (u.latinDominated text = false ∧ text.toList.any (fun c => !isSpace c) = true) then 1 else 0 := by
  refine ⟨fun query candidate => ⟨?_, ?_, ?_⟩, fun text => ?_⟩
  · rw [u.score_eq]
    split
    · exact Similarity.dice_nonneg _ _
    · exact Similarity.dice_nonneg _ _
  · rw [u.score_eq]
    split
    · exact Similarity.dice_le_one _ _
    · exact Similarity.dice_le_one _ _
  · rw [u.score_eq, u.score_eq, Similarity.dice_comm,
      Similarity.dice_comm (u.grams query)]
    exact if_congr and_comm rfl rfl
  · by_cases hlatin : u.latinDominated text = true
    · rw [u.score_latin hlatin hlatin, Similarity.dice_self]
      by_cases hterms : u.topicTerms text = []
      · rw [if_pos (by rw [Unicode.terms, hterms]; rfl), if_neg]
        rintro (⟨_, hne⟩ | ⟨hother, _⟩)
        · exact hne hterms
        · rw [hlatin] at hother
          cases hother
      · rw [if_neg (by rwa [Unicode.terms, Multiset.coe_eq_zero]), if_pos (Or.inl ⟨hlatin, hterms⟩)]
    · have hother : u.latinDominated text = false := by simpa using hlatin
      rw [u.score_other fun h => hlatin h.1, Similarity.dice_self]
      by_cases hblank : ∀ c ∈ text.toList, isSpace c = true
      · rw [if_pos ((u.grams_eq_zero text).mpr hblank), if_neg]
        rintro (⟨h, _⟩ | ⟨_, hany⟩)
        · exact hlatin h
        · obtain ⟨c, hc, hspace⟩ := List.any_eq_true.mp hany
          rw [hblank c hc] at hspace
          cases hspace
      · rw [if_neg fun h => hblank ((u.grams_eq_zero text).mp h), if_pos]
        refine Or.inr ⟨hother, ?_⟩
        by_contra hnone
        refine hblank fun c hc => ?_
        by_contra hspace
        exact hnone (List.any_eq_true.mpr ⟨c, hc, by simpa using hspace⟩)

end ChoraMem
