import CausalRules.Facility.Text

/-!
# Reading string literals back

A text is written into a script between single quotes, with a backslash before what would be read as
something else. Here literals are read as the language of the script reads them. A text comes back
unless it holds a carriage return, which ends a line for that reader and is not escaped.

- `readBody`, `readLiteral`: the text that a literal stands for, and what follows the literal.
- `readBody_flatMap`: one character of a text after the other.
- `readLiteral_quote`: every text, whatever follows it.
- `carriageReturn_unread`: a literal that is not read.
-/

namespace CausalRules.Script

/-- What an escape stands for, of those that are written. -/
def escaped? : Char → Option Char
  | '\\' => some '\\'
  | '\'' => some '\''
  | 'n' => some '\n'
  | _ => none

/-- Puts a character before the text that is read. -/
def putBefore (c : Char) (read : List Char × List Char) : List Char × List Char :=
  (c :: read.1, read.2)

/-- Reads a literal from after its first quote: the characters that it stands for, and those behind
it. A backslash escapes the next character; what is read after an escape that is never written is
left open. The first quote that is not escaped ends the literal, which holds no end of a line. -/
def readBody (other : Char → List Char → Option (List Char × List Char)) :
    List Char → Option (List Char × List Char)
  | [] | ['\\'] => none
  | '\'' :: rest => some ([], rest)
  | '\\' :: c :: rest =>
    match escaped? c with
    | some meant => putBefore meant <$> readBody other rest
    | none => other c rest
  | c :: rest =>
    if c = '\n' ∨ c = '\r' then none else putBefore c <$> readBody other rest

/-- Reads the literal at the beginning of a script: the text that it stands for, and the rest. -/
def readLiteral (other : Char → List Char → Option (List Char × List Char)) (script : String) :
    Option (String × String) :=
  match script.toList with
  | '\'' :: rest => Prod.map String.ofList String.ofList <$> readBody other rest
  | _ => none

section Quoted

variable (other : Char → List Char → Option (List Char × List Char))

/-- A character is read as itself, apart from a carriage return, which is not read. -/
theorem readBody_quoteChar (c : Char) (rest : List Char) :
    readBody other (quoteChar c ++ rest) =
      if c = '\r' then none else putBefore c <$> readBody other rest := by
  unfold quoteChar
  split
  · rfl
  · rfl
  · rfl
  · -- the character stands for itself, as it is none of those that are escaped
    rename_i hslash hquote hline
    rw [List.singleton_append, readBody]
    · simp only [or_iff_right hline]
    · exact fun h _ => hslash h
    · exact hquote
    · exact fun _ _ h _ => hslash h

theorem readBody_flatMap (cs rest : List Char) :
    readBody other (cs.flatMap quoteChar ++ '\'' :: rest) =
      if '\r' ∈ cs then none else some (cs, rest) := by
  induction cs with
  | nil => rfl
  | cons c cs ih =>
    rw [List.flatMap_cons, List.append_assoc, readBody_quoteChar, ih]
    by_cases hc : c = '\r'
    · simp [hc]
    · by_cases hcs : '\r' ∈ cs
      · simp [hcs]
      · simp [hc, hcs, Ne.symm hc, putBefore]

/-- **A text without a carriage return is read back from its literal**, and the literal ends where
it does, whatever stands behind it. The literal of any other text is not read. -/
theorem readLiteral_quote (text rest : String) :
    readLiteral other (quote text ++ rest) =
      if '\r' ∈ text.toList then none else some (text, rest) := by
  have hscript : (quote text ++ rest).toList =
      '\'' :: (text.toList.flatMap quoteChar ++ '\'' :: rest.toList) := by
    simp [quote]
  rw [readLiteral, hscript]
  show Prod.map String.ofList String.ofList <$> readBody other _ = _
  rw [readBody_flatMap]
  by_cases h : '\r' ∈ text.toList
  · rw [if_pos h, if_pos h]
    rfl
  · rw [if_neg h, if_neg h]
    simp

/-- Backslashes before a quote, and a quote behind the literal. -/
example : readLiteral (fun _ _ => none) (quote "a\\\\'\nb" ++ "'c") = some ("a\\\\'\nb", "'c") :=
  by decide +kernel

end Quoted

/-- A rule with a carriage return in a literal. -/
def returning : Rule where
  condition := none
  intention := ⟨"m", [.literal "a\rb"], 0⟩
  effects := [⟨"f", [], 0⟩]
  position := 0

/-- The carriage return stands in the script as it is, so the literal is not read. -/
theorem carriageReturn_unread : quote "a\rb" = "'a\rb'" ∧
    readLiteral (fun _ _ => none) (quote "a\rb") = none ∧
    Facility.Domain.ofProgram ⟨[returning]⟩ = .ok
      ⟨"    if actions == ('f',):\n        g.add((states[0],'m',('a\rb', )))\n", 1⟩ := by
  exact ⟨by decide, by decide, rfl⟩

end CausalRules.Script
