import Mathlib.Data.List.TakeWhile

/-!
# Cutting a text at a delimiter

{lit}`strtok_r` skips the delimiters in front of a token, takes the items up to the next
delimiter, and leaves what is behind that one.  A text is spread out over its tokens with any
number of delimiters between them, and the tokens are all that the caller sees of it.  A text
can also be stripped of the items of one kind at its two ends.

Main results:

- Theorem {lit}`next_of_spread`: the first token of a text that is spread out over some words.
- Theorem {lit}`tokens_of_spread`: the tokens of a text are the words it is spread out over.
- Theorem {lit}`strip_pad`: padding is stripped off.
-/

namespace SystemFundamentals.Library.Tokens

universe u

variable {α : Type u}

/-! ## Stripping -/

section Strip

variable (pad : α → Bool)

/-- A text without the padding at its ends. -/
def strip (text : List α) : List α :=
  ((text.dropWhile pad).reverse.dropWhile pad).reverse

/-- The text neither begins nor ends with padding. -/
def Bare (text : List α) : Prop :=
  (∀ c ∈ text.head?, pad c = false) ∧ ∀ c ∈ text.getLast?, pad c = false

variable {pad}

theorem dropWhile_of_head {text : List α} (h : ∀ c ∈ text.head?, pad c = false) :
    text.dropWhile pad = text := by
  cases text with
  | nil => rfl
  | cons c text =>
      have hc := h c rfl
      simp [hc]

/-- A text without padding at its ends stays, and so it is what is left of the text with any
padding around it. -/
theorem strip_pad {front text back : List α} (hfront : ∀ c ∈ front, pad c = true)
    (hback : ∀ c ∈ back, pad c = true) (h : Bare pad text) (hne : text ≠ []) :
    strip pad (front ++ text ++ back) = text := by
  have hhead : ∀ c ∈ (text ++ back).head?, pad c = false := by
    cases text with
    | nil => exact absurd rfl hne
    | cons c text => exact h.1
  have hlast : ∀ c ∈ text.reverse.head?, pad c = false := by
    rw [List.head?_reverse]
    exact h.2
  have hback' : ∀ c ∈ back.reverse, pad c = true := by simpa using hback
  unfold strip
  rw [List.append_assoc, List.dropWhile_append_of_pos hfront, dropWhile_of_head hhead,
    List.reverse_append, List.dropWhile_append_of_pos hback', dropWhile_of_head hlast,
    List.reverse_reverse]

end Strip

/-! ## Texts that are spread out -/

/-- The text consists of the words in their order, with delimiters between them and around
them. -/
inductive Spread (delim : α) : List (List α) → List α → Prop
  | nil {pad : List α} : (∀ c ∈ pad, c = delim) → Spread delim [] pad
  | last {pad word : List α} : (∀ c ∈ pad, c = delim) → word ≠ [] → delim ∉ word →
      Spread delim [word] (pad ++ word)
  | cons {pad word : List α} {words : List (List α)} {rest : List α} :
      (∀ c ∈ pad, c = delim) → word ≠ [] → delim ∉ word → Spread delim words rest →
        Spread delim (word :: words) (pad ++ (word ++ delim :: rest))

variable {delim : α}

/-- An item of the text is a delimiter or stands in a word. -/
theorem Spread.mem {words : List (List α)} {text : List α} (h : Spread delim words text) {c : α}
    (hc : c ∈ text) : c = delim ∨ ∃ word ∈ words, c ∈ word := by
  induction h with
  | nil hpad => exact Or.inl (hpad c hc)
  | last hpad _ _ =>
      rcases List.mem_append.mp hc with hc | hc
      · exact Or.inl (hpad c hc)
      · exact Or.inr ⟨_, List.mem_cons_self, hc⟩
  | cons hpad _ _ _ ih =>
      rcases List.mem_append.mp hc with hc | hc
      · exact Or.inl (hpad c hc)
      rcases List.mem_append.mp hc with hc | hc
      · exact Or.inr ⟨_, List.mem_cons_self, hc⟩
      rcases List.mem_cons.mp hc with hc | hc
      · exact Or.inl hc
      · refine (ih hc).imp_right ?_
        rintro ⟨word, hword, hmem⟩
        exact ⟨word, List.mem_cons_of_mem _ hword, hmem⟩

theorem Spread.ne_nil {word : List α} {words : List (List α)} {text : List α}
    (h : Spread delim (word :: words) text) : text ≠ [] := by
  cases h with
  | last _ hne _ => exact List.append_ne_nil_of_right_ne_nil _ hne
  | cons _ hne _ _ =>
      exact List.append_ne_nil_of_right_ne_nil _ (List.append_ne_nil_of_left_ne_nil hne _)

/-- A text without delimiters in front begins with its first word. -/
theorem Spread.starts {word : List α} {words : List (List α)} {text : List α}
    (h : Spread delim (word :: words) text) (hhead : ∀ c ∈ text.head?, c ≠ delim) :
    ∃ rest, text = word ++ rest ∧ ∀ c ∈ rest.head?, c = delim := by
  cases h with
  | @last pad _ hpad _ _ =>
      cases pad with
      | nil => exact ⟨[], by simp, by simp⟩
      | cons c pad => exact absurd (hpad c List.mem_cons_self) (hhead c rfl)
  | @cons pad _ _ rest hpad _ _ _ =>
      cases pad with
      | nil => exact ⟨delim :: rest, rfl, by simp⟩
      | cons c pad => exact absurd (hpad c List.mem_cons_self) (hhead c rfl)

/-! ## Tokens -/

variable [DecidableEq α]

/-- {lit}`strtok_r`: the next token and what is behind it. -/
def next (delim : α) (input : List α) : Option (List α) × List α :=
  let rest := input.dropWhile (· = delim)
  if rest = [] then (none, [])
  else (some (rest.takeWhile (· ≠ delim)), (rest.dropWhile (· ≠ delim)).tail)

/-- A token is shorter than the text it is cut from, and so is the rest. -/
theorem length_next {input token rest : List α}
    (h : next delim input = (some token, rest)) : rest.length < input.length := by
  unfold next at h
  simp only at h
  by_cases hrest : input.dropWhile (· = delim) = []
  · rw [if_pos hrest] at h
    cases h
  rw [if_neg hrest] at h
  obtain ⟨-, rfl⟩ := Prod.mk.inj h
  have hpos := List.length_pos_iff.mpr hrest
  have hle := (List.dropWhile_suffix (· = delim) (l := input)).length_le
  have hle' := (List.dropWhile_suffix (· ≠ delim)
    (l := input.dropWhile (· = delim))).length_le
  rw [List.length_tail]
  omega

/-- There is no token in a text of delimiters. -/
theorem next_eq_none_iff {input : List α} :
    (next delim input).1 = none ↔ ∀ c ∈ input, c = delim := by
  unfold next
  simp only
  by_cases hrest : input.dropWhile (· = delim) = []
  · rw [if_pos hrest]
    simpa using List.dropWhile_eq_nil_iff.mp hrest
  · rw [if_neg hrest]
    refine iff_of_false (by simp) ?_
    intro h
    exact hrest (List.dropWhile_eq_nil_iff.mpr (by simpa using h))

/-- The calls of {lit}`strtok_r` until there is no token left. -/
def tokens (delim : α) (input : List α) : List (List α) :=
  match _h : next delim input with
  | (none, _) => []
  | (some token, rest) => token :: tokens delim rest
termination_by input.length
decreasing_by exact length_next _h

theorem next_pad {pad text : List α} (h : ∀ c ∈ pad, c = delim) :
    next delim (pad ++ text) = next delim text := by
  have hskip : (pad ++ text).dropWhile (· = delim) = text.dropWhile (· = delim) :=
    List.dropWhile_append_of_pos (by simpa using h)
  unfold next
  rw [hskip]

/-- A token that a delimiter ends, or the end of the text. -/
theorem next_word {word rest : List α} (hne : word ≠ []) (hword : delim ∉ word)
    (hrest : ∀ c ∈ rest.head?, c = delim) :
    next delim (word ++ rest) = (some word, rest.tail) := by
  cases word with
  | nil => exact absurd rfl hne
  | cons c word =>
      have hc : c ≠ delim := fun h => hword (h ▸ List.mem_cons_self)
      have hall : ∀ d ∈ c :: word, (decide (d ≠ delim)) = true := by
        intro d hd
        simpa using fun h : d = delim => hword (h ▸ hd)
      have hstop : rest.takeWhile (· ≠ delim) = [] ∧ rest.dropWhile (· ≠ delim) = rest := by
        cases rest with
        | nil => exact ⟨rfl, rfl⟩
        | cons d rest =>
            have hd := hrest d rfl
            simp [hd]
      unfold next
      have hskip : ((c :: word) ++ rest).dropWhile (· = delim) = (c :: word) ++ rest := by
        simp [hc]
      simp only
      rw [hskip, List.takeWhile_append_of_pos hall, List.dropWhile_append_of_pos hall, hstop.1,
        hstop.2, List.append_nil]
      rfl

/-- The first token of a text that is spread out over some words. -/
theorem next_of_spread {words : List (List α)} {text : List α} (h : Spread delim words text) :
    (words = [] ∧ next delim text = (none, [])) ∨
      ∃ word words' rest, words = word :: words' ∧ next delim text = (some word, rest) ∧
        Spread delim words' rest := by
  cases h with
  | nil hpad =>
      refine Or.inl ⟨rfl, ?_⟩
      rw [← List.append_nil text, next_pad hpad]
      rfl
  | @last pad word hpad hne hword =>
      refine Or.inr ⟨word, [], [], rfl, ?_, .nil (by simp)⟩
      rw [next_pad hpad]
      have hnext : next delim (word ++ []) = (some word, []) := next_word hne hword (by simp)
      rwa [List.append_nil] at hnext
  | @cons pad word words' rest hpad hne hword hrest =>
      refine Or.inr ⟨word, words', rest, rfl, ?_, hrest⟩
      rw [next_pad hpad, next_word hne hword (by simp)]
      rfl

/-- The tokens of a text are the words it is spread out over. -/
theorem tokens_of_spread {words : List (List α)} {text : List α}
    (h : Spread delim words text) : tokens delim text = words := by
  induction words generalizing text with
  | nil =>
      rcases next_of_spread h with ⟨-, hnext⟩ | ⟨_, _, _, heq, _⟩
      · rw [tokens, hnext]
      · cases heq
  | cons word words ih =>
      rcases next_of_spread h with ⟨heq, -⟩ | ⟨word', words', rest, heq, hnext, hrest⟩
      · cases heq
      · cases heq
        rw [tokens, hnext]
        exact congrArg _ (ih hrest)


end SystemFundamentals.Library.Tokens
