import Treewalk.Syntax.Printer

/-!
# Texts that nest

**A text of nested parentheses can be read in one way only, if its words are tidy.**  A word ends
where a blank comes or where a parenthesis closes that was not opened in it.  So a word may contain
parentheses if they match, but no blank.  A list has a head and, behind blanks, at least one part;
this tells it from a word.
-/

namespace Treewalk

/-! ### Tidy words -/

/-- The number of open parentheses behind a character.  There is none where a word must end. -/
def depthBehind? (c : Char) (depth : Nat) : Option Nat :=
  if c = '(' then some (depth + 1)
  else if c = ')' then if depth = 0 then none else some (depth - 1)
  else if c = ' ' then none
  else some depth

/-- The text goes on a word and ends it, with a number of parentheses open in front of it. -/
def isTidyFrom (depth : Nat) : List Char → Bool
  | [] => depth = 0
  | c :: rest =>
    match depthBehind? c depth with
    | some depth => isTidyFrom depth rest
    | none => false

/-- The text has no blank, and its parentheses match. -/
def IsTidy (text : String) : Prop :=
  isTidyFrom 0 text.toList = true

instance (text : String) : Decidable (IsTidy text) :=
  inferInstanceAs (Decidable (_ = true))

/-- A word ends in front of the text. -/
def Stops (rest : List Char) : Prop :=
  ∀ c ∈ rest.head?, depthBehind? c 0 = none

theorem stops_blank (rest : List Char) : Stops (' ' :: rest) := by
  intro c hc
  cases hc
  rfl

theorem stops_closing (rest : List Char) : Stops (')' :: rest) := by
  intro c hc
  cases hc
  rfl

theorem stops_nil : Stops [] := by
  intro c hc
  cases hc

section Words

variable {c : Char} {depth : Nat} {word other rest more : List Char}

theorem isTidyFrom_nil_iff : isTidyFrom depth [] = true ↔ depth = 0 := by
  simp [isTidyFrom]

theorem isTidyFrom_cons_iff :
    isTidyFrom depth (c :: rest) = true
      ↔ ∃ next, depthBehind? c depth = some next ∧ isTidyFrom next rest = true := by
  rw [isTidyFrom]
  rcases depthBehind? c depth with _ | next <;> simp

theorem depthBehind?_add {next : Nat} (h : depthBehind? c depth = some next) (more : Nat) :
    depthBehind? c (depth + more) = some (next + more) := by
  unfold depthBehind? at h ⊢
  split at h
  · cases h
    rw [if_pos ‹_›, Nat.add_right_comm]
  · rw [if_neg ‹_›]
    split at h
    · rw [if_pos ‹_›]
      split at h
      · cases h
      · cases h
        rw [if_neg (by omega)]
        congr 1
        omega
    · rw [if_neg ‹_›]
      split at h
      · cases h
      · cases h
        rw [if_neg ‹_›]

/-- Where the one word ends, the other does. -/
theorem word_unique (hword : isTidyFrom depth word = true) (hother : isTidyFrom depth other = true)
    (hrest : Stops rest) (hmore : Stops more) (h : word ++ rest = other ++ more) :
    word = other ∧ rest = more := by
  induction word generalizing depth other with
  | nil =>
    cases other with
    | nil => exact ⟨rfl, h⟩
    | cons c other =>
      cases isTidyFrom_nil_iff.mp hword
      obtain ⟨next, hnext, -⟩ := isTidyFrom_cons_iff.mp hother
      have hnone := hrest c (by rw [List.nil_append] at h; rw [h]; rfl)
      rw [hnone] at hnext
      cases hnext
  | cons c word ih =>
    obtain ⟨next, hnext, hword⟩ := isTidyFrom_cons_iff.mp hword
    cases other with
    | nil =>
      cases isTidyFrom_nil_iff.mp hother
      have hnone := hmore c (by rw [List.nil_append] at h; rw [← h]; rfl)
      rw [hnone] at hnext
      cases hnext
    | cons c' other =>
      obtain ⟨rfl, htail⟩ := List.cons.inj h
      obtain ⟨next', hnext', hother⟩ := isTidyFrom_cons_iff.mp hother
      cases hnext.symm.trans hnext'
      obtain ⟨rfl, hsame⟩ := ih hword hother htail
      exact ⟨rfl, hsame⟩

/-- A word that has opened a parenthesis does not go on like a word with a blank behind it. -/
theorem word_ne_head {opened : Nat} (hhead : isTidyFrom depth other = true)
    (hword : isTidyFrom (depth + (opened + 1)) word = true) :
    word ++ rest ≠ other ++ ' ' :: more := by
  induction other generalizing depth word with
  | nil =>
    intro h
    cases word with
    | nil => exact absurd (isTidyFrom_nil_iff.mp hword) (by omega)
    | cons c word =>
      obtain ⟨next, hnext, -⟩ := isTidyFrom_cons_iff.mp hword
      cases h
      cases hnext
  | cons c other ih =>
    intro h
    obtain ⟨next, hnext, hhead'⟩ := isTidyFrom_cons_iff.mp hhead
    cases word with
    | nil => exact absurd (isTidyFrom_nil_iff.mp hword) (by omega)
    | cons c' word =>
      obtain ⟨rfl, htail⟩ := List.cons.inj h
      obtain ⟨next', hnext', hword⟩ := isTidyFrom_cons_iff.mp hword
      rw [depthBehind?_add hnext] at hnext'
      cases hnext'
      exact ih hhead' hword htail

end Words

/-! ### Nested texts -/

/-- A word, or a list with a head and parts. -/
inductive Nested where
  | word (text : String)
  | list (head : String) (parts : List Nested)

mutual

/-- A nested text as it is written. -/
def Nested.chars : Nested → List Char
  | .word text => text.toList
  | .list head parts => '(' :: (head.toList ++ (partChars parts ++ [')']))

/-- The parts of a list, each behind a blank. -/
def partChars : List Nested → List Char
  | [] => []
  | part :: parts => ' ' :: (part.chars ++ partChars parts)

end

mutual

/-- All words are tidy, and every list has a part. -/
def Nested.Tidy : Nested → Prop
  | .word text => IsTidy text
  | .list head parts => IsTidy head ∧ parts ≠ [] ∧ TidyParts parts

@[inherit_doc Nested.Tidy]
def TidyParts : List Nested → Prop
  | [] => True
  | part :: parts => part.Tidy ∧ TidyParts parts

end

theorem exists_of_partChars {parts : List Nested} (h : parts ≠ []) :
    ∃ rest, partChars parts = ' ' :: rest := by
  cases parts with
  | nil => exact absurd rfl h
  | cons part parts => exact ⟨_, by rw [partChars]⟩

theorem stops_partChars (parts : List Nested) (rest : List Char) :
    Stops (partChars parts ++ ')' :: rest) := by
  cases parts with
  | nil => exact stops_closing rest
  | cons part parts =>
    rw [partChars]
    exact stops_blank _

/-- No list is written like a word. -/
theorem word_ne_list {text head : String} {parts : List Nested} {rest more : List Char}
    (htext : IsTidy text) (hhead : IsTidy head) (hparts : parts ≠ []) (hrest : Stops rest) :
    text.toList ++ rest ≠ (Nested.list head parts).chars ++ more := by
  intro h
  obtain ⟨blank, hblank⟩ := exists_of_partChars hparts
  have hlist : (Nested.list head parts).chars ++ more
      = '(' :: (head.toList ++ ' ' :: (blank ++ ')' :: more)) := by
    rw [Nested.chars, hblank]
    simp
  rw [hlist] at h
  unfold IsTidy at htext
  rcases htoList : text.toList with _ | ⟨c, word⟩ <;> rw [htoList] at h htext
  · have hnone := hrest '(' (by rw [List.nil_append] at h; rw [h]; rfl)
    cases hnone
  · obtain ⟨rfl, htail⟩ := List.cons.inj h
    obtain ⟨next, hnext, hword⟩ := isTidyFrom_cons_iff.mp htext
    cases hnext
    have hopened : isTidyFrom (0 + (0 + 1)) word = true := hword
    exact word_ne_head hhead hopened htail

mutual

/-- What is written in front of the end of a word is a single nested text. -/
theorem Nested.unique : ∀ (x y : Nested) {rest more : List Char}, x.Tidy → y.Tidy → Stops rest →
    Stops more → x.chars ++ rest = y.chars ++ more → x = y ∧ rest = more
  | .word text, .word other, rest, more, hx, hy, hrest, hmore, h => by
    simp only [Nested.Tidy, Nested.chars] at hx hy h
    obtain ⟨htext, hsame⟩ := word_unique hx hy hrest hmore h
    exact ⟨by rw [String.toList_inj.mp htext], hsame⟩
  | .word text, .list head parts, rest, more, hx, hy, hrest, _, h => by
    simp only [Nested.Tidy] at hx hy
    exact absurd h (word_ne_list hx hy.1 hy.2.1 hrest)
  | .list head parts, .word text, rest, more, hx, hy, _, hmore, h => by
    simp only [Nested.Tidy] at hx hy
    exact absurd h.symm (word_ne_list hy hx.1 hx.2.1 hmore)
  | .list head parts, .list head' parts', rest, more, hx, hy, _, _, h => by
    simp only [Nested.Tidy] at hx hy
    obtain ⟨hhead, -, hparts⟩ := hx
    obtain ⟨hhead', -, hparts'⟩ := hy
    simp only [Nested.chars, List.cons_append, List.append_assoc, List.nil_append,
      List.cons.injEq, true_and] at h
    obtain ⟨hsameHead, htail⟩ := word_unique hhead hhead' (stops_partChars parts rest)
      (stops_partChars parts' more) h
    obtain ⟨rfl, hsame⟩ := parts_unique parts parts' hparts hparts' htail
    exact ⟨by rw [String.toList_inj.mp hsameHead], hsame⟩

theorem parts_unique : ∀ (xs ys : List Nested) {rest more : List Char}, TidyParts xs →
    TidyParts ys → partChars xs ++ ')' :: rest = partChars ys ++ ')' :: more →
    xs = ys ∧ rest = more
  | [], [], _, _, _, _, h => ⟨rfl, (List.cons.inj h).2⟩
  | [], _ :: _, _, _, _, _, h => by
    rw [partChars, partChars] at h
    cases h
  | _ :: _, [], _, _, _, _, h => by
    rw [partChars, partChars] at h
    cases h
  | x :: xs, y :: ys, rest, more, hx, hy, h => by
    simp only [TidyParts] at hx hy
    simp only [partChars, List.cons_append, List.append_assoc, List.cons.injEq, true_and] at h
    obtain ⟨rfl, hparts⟩ := x.unique y hx.1 hy.1 (stops_partChars xs rest)
      (stops_partChars ys more) h
    obtain ⟨rfl, hsame⟩ := parts_unique xs ys hx.2 hy.2 hparts
    exact ⟨rfl, hsame⟩

end

end Treewalk
