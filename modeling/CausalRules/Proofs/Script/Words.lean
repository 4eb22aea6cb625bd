import CausalRules.Proofs.Script.Indentation

/-!
# Words of a script

- `words`: the words of a text, which are runs of letters, digits and underscores.
- `topLevelNames`: the names that a line binds at the top level of a script.
- `words_append`, `words_separator`, `words_join`: the words of a text that is put together.
- `topLevelNames_indented`: only lines that are not indented bind names.
-/

namespace CausalRules.Script

/-- A character that an identifier may hold. -/
def isIdentifierChar (c : Char) : Bool :=
  c.isAlphanum || c = '_'

/-- The words of what is left of a text, after the characters of a word so far in reverse. -/
def wordsFrom (word : List Char) : List Char → List String
  | [] => if word = [] then [] else [String.ofList word.reverse]
  | c :: rest =>
    if isIdentifierChar c then wordsFrom (c :: word) rest
    else if word = [] then wordsFrom [] rest
    else String.ofList word.reverse :: wordsFrom [] rest

/-- The words of a text. -/
def words (text : String) : List String :=
  wordsFrom [] text.toList

/-- The names that a line binds at the top level of a script, where lines are not indented: by an
import, a definition or an assignment. -/
def topLevelNames (line : String) : List String :=
  if line.toList.head? = some ' ' then []
  else
    match words line with
    | "import" :: names => names
    | "from" :: _ :: "import" :: names => names
    | "def" :: name :: _ => [name]
    | name :: _ => if (name ++ " = ").toList.isPrefixOf line.toList then [name] else []
    | [] => []

/-- No word goes on at the beginning of a text. -/
def EndsWord (text : List Char) : Prop :=
  text.head?.all (! isIdentifierChar ·) = true

instance : DecidablePred EndsWord := fun text =>
  inferInstanceAs (Decidable (text.head?.all (! isIdentifierChar ·) = true))

/-- What is not part of a word ends it. -/
theorem wordsFrom_of_endsWord {word rest : List Char} (hword : word ≠ []) (hrest : EndsWord rest) :
    wordsFrom word rest = String.ofList word.reverse :: wordsFrom [] rest := by
  cases rest with
  | nil =>
    rw [wordsFrom, if_neg hword]
    rfl
  | cons c rest =>
    have hc : ¬ isIdentifierChar c = true := by simpa [EndsWord] using hrest
    rw [wordsFrom, if_neg hc, if_neg hword, wordsFrom, if_neg hc, if_pos rfl]

theorem wordsFrom_append {word part rest : List Char}
    (hpart : ∀ c ∈ part, isIdentifierChar c = true) :
    wordsFrom word (part ++ rest) = wordsFrom (part.reverse ++ word) rest := by
  induction part generalizing word with
  | nil => rfl
  | cons c part ih =>
    obtain ⟨hc, hpart⟩ := List.forall_mem_cons.mp hpart
    rw [List.cons_append, wordsFrom, if_pos hc, ih hpart, List.reverse_cons, List.append_assoc]
    rfl

section Words

variable {word separator after : String}

/-- A text made of characters of identifiers, and of one at least. -/
structure IsWord (word : String) : Prop where
  chars : Over (isIdentifierChar · = true) word
  ne_empty : word ≠ ""

/-- A word that no more of follows is the first one of its text. -/
theorem words_append (hword : IsWord word) (hafter : EndsWord after.toList) :
    words (word ++ after) = word :: words after := by
  have hne : word.toList.reverse ≠ [] := fun hnil =>
    hword.ne_empty (String.toList_eq_nil_iff.mp (List.reverse_eq_nil_iff.mp hnil))
  rw [words, words, String.toList_append, wordsFrom_append hword.chars, List.append_nil,
    wordsFrom_of_endsWord hne hafter, List.reverse_reverse, String.ofList_toList]

/-- What is between words does not count. -/
theorem words_separator (h : Over (isIdentifierChar · = false) separator) :
    words (separator ++ after) = words after := by
  have hlist : ∀ {cs rest : List Char}, (∀ c ∈ cs, isIdentifierChar c = false) →
      wordsFrom [] (cs ++ rest) = wordsFrom [] rest := by
    intro cs rest hcs
    induction cs with
    | nil => rfl
    | cons c cs ih =>
      obtain ⟨hc, hcs⟩ := List.forall_mem_cons.mp hcs
      rw [List.cons_append, wordsFrom, if_neg (Bool.eq_false_iff.mp hc), if_pos rfl, ih hcs]
  rw [words, words, String.toList_append, hlist h]

/-- What begins with a separator ends a word. -/
theorem endsWord_separator (h : Over (isIdentifierChar · = false) separator)
    (hne : separator ≠ "") : EndsWord (separator ++ after).toList := by
  cases hlist : separator.toList with
  | nil => exact absurd (String.toList_eq_nil_iff.mp hlist) hne
  | cons c rest =>
    have hc := h c (by rw [hlist]; exact List.mem_cons_self)
    rw [String.toList_append, hlist]
    simp [EndsWord, hc]

/-- A word and a separator after it. -/
theorem words_append_separator (hword : IsWord word)
    (h : Over (isIdentifierChar · = false) separator) (hne : separator ≠ "") :
    words (word ++ (separator ++ after)) = word :: words after := by
  rw [words_append hword (endsWord_separator h hne), words_separator h]

/-- Words with a separator before each of them. -/
theorem words_join {ws : List String} (hword : IsWord word) (hws : ∀ w ∈ ws, IsWord w)
    (h : Over (isIdentifierChar · = false) separator) (hne : separator ≠ "")
    (hafter : EndsWord after.toList) :
    words (word ++ (String.join (ws.map (separator ++ ·)) ++ after)) =
      word :: (ws ++ words after) := by
  induction ws generalizing word with
  | nil =>
    rw [List.map_nil, String.join_nil, String.empty_append, words_append hword hafter,
      List.nil_append]
  | cons w ws ih =>
    obtain ⟨hw, hws⟩ := List.forall_mem_cons.mp hws
    rw [List.map_cons, String.join_cons, String.append_assoc, String.append_assoc,
      words_append_separator hword h hne, ih hw hws, List.cons_append]

/-- An indented line binds nothing at the top level. -/
theorem topLevelNames_indented {line : Line} (h : 0 < line.depth) : topLevelNames line.raw = [] := by
  obtain ⟨n, hn⟩ : ∃ n, 4 * line.depth = n + 1 := ⟨4 * line.depth - 1, by omega⟩
  have hspace : line.raw.toList.head? = some ' ' := by
    rw [Line.toList_raw, hn, List.replicate_succ]
    rfl
  unfold topLevelNames
  rw [if_pos hspace]

end Words

end CausalRules.Script
