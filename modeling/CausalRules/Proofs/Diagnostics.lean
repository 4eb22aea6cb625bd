import CausalRules.Compile
import CausalRules.Proofs.Layout.Facility
import CausalRules.Proofs.Layout.Imitation
import CausalRules.Proofs.Layout.Reading
import CausalRules.Proofs.Reading.Faults
import CausalRules.Proofs.Rule

/-!
# Errors point into the text

Offsets are taken from tokens when a text is read, and handed on by every reader, by the syntax tree
and by both targets. A text compared with itself shows that none of them makes an offset up: an offset
that corresponds to itself is that of a token.

- `ReadError.PointsInto`: what an error says about its text is so.
- `pointsInto_of_fault`, `pointsInto_of_blames`: an error of the scanner, and one of a reader.
- `diagnostics_point_into_text`: the same for a text and its scripts.
-/

namespace CausalRules

/-- The offset of a token of a text, or of its end. -/
def IsTokenOffset (text : String) (position : Nat) : Prop :=
  ∃ tokens, tokenize text = .ok tokens ∧ ∃ t ∈ tokens, t.position = position

/-- An error points at what it is about. Its offset is at most the size of the text, and a character
begins there or the text ends; it is that of a token, if the text has tokens. -/
structure ReadError.PointsInto (text : String) (e : ReadError) : Prop where
  boundary : ∀ p, e.position? = some p → String.Pos.Raw.IsValid text ⟨p⟩
  token : (∃ tokens, tokenize text = .ok tokens) → ∀ p, e.position? = some p → IsTokenOffset text p
  continuation : ∀ fault p, e = .invalidContinuation fault p →
    ∃ tokens suffix, tokenize text = .ok tokens ∧ ⟨.continuation suffix, p⟩ ∈ tokens
  /-- The word stands where a token begins, and its code has no end. -/
  python : ∀ p, e = .unterminatedPython p → ∃ before code tokens,
    text = before ++ "PYTHON(#" ++ code ∧ before.utf8ByteSize = p ∧ Spread 0 before tokens ∧
      ∀ body rest, '#' ∉ body → code.toList ≠ body ++ '#' :: ')' :: rest
  character : ∀ c p, e = .unexpectedCharacter c p → ∃ before after,
    text = before ++ String.singleton c ++ after ∧ before.utf8ByteSize = p

/-! ## Offsets -/

section Offsets

variable {text : String} {tokens : List Located}

theorem isValid_of_append {before after : String} (htext : text = before ++ after) {p : Nat}
    (hp : before.utf8ByteSize = p) : String.Pos.Raw.IsValid text ⟨p⟩ :=
  String.Pos.Raw.isValid_iff_exists_append.mpr
    ⟨before, after, htext, String.Pos.Raw.ext hp.symm⟩

/-- A character of the text begins where a token does, but for the end of the input. -/
theorem isValid_of_token (htokens : tokenize text = .ok tokens) {t : Located} (ht : t ∈ tokens) :
    String.Pos.Raw.IsValid text ⟨t.position⟩ := by
  have hspread := tokenize_spread htokens
  by_cases hend : t.token = .endOfInput
  · obtain ⟨body, rfl, hbody⟩ := hspread.exists_concat
    rcases List.mem_append.mp ht with ht | ht
    · exact (hbody t ht hend).elim
    · obtain rfl := List.mem_singleton.mp ht
      exact isValid_of_append (String.append_empty ..).symm (Nat.zero_add _).symm
  · obtain ⟨before, after, htext, hposition⟩ := hspread.standsIn ht hend
    exact isValid_of_append (htext.trans (String.append_assoc ..)) hposition

theorem IsTokenOffset.isValid {p : Nat} (h : IsTokenOffset text p) :
    String.Pos.Raw.IsValid text ⟨p⟩ := by
  obtain ⟨tokens, htokens, t, ht, rfl⟩ := h
  exact isValid_of_token htokens ht

/-- An offset that corresponds to itself is that of a token. -/
theorem isTokenOffset_of_sameToken (htokens : tokenize text = .ok tokens) {p : Nat}
    (h : SameToken tokens tokens p p) : IsTokenOffset text p := by
  obtain ⟨n, t, -, ht, -, hp, -⟩ := h
  exact ⟨tokens, htokens, t, List.mem_of_getElem? ht, hp⟩

variable {R : Nat → Nat → Prop} {p : Nat}

theorem ReadError.Alike.at_position {e : ReadError} (h : e.Alike R e) (hp : e.position? = some p) :
    R p p := by
  cases h <;> cases hp <;> assumption

theorem EmitError.Alike.at_position {e : EmitError} (h : e.Alike R e) (hp : e.position? = some p) :
    R p p := by
  cases h <;> cases hp <;> assumption

end Offsets

/-! ## Errors of a text -/

section Reading

variable {limits : Limits} {text : String} {tokens : List Located} {e : ReadError}

/-- A text without tokens is refused at what cannot be read. -/
theorem pointsInto_of_fault (h : tokenize text = .error e) : e.PointsInto text := by
  have hnone : ¬∃ tokens, tokenize text = .ok tokens := by
    rintro ⟨tokens, htokens⟩
    rw [h] at htokens
    cases htokens
  rcases tokenize_fault h with rfl | ⟨before, after, tokens, htext, hspread, hunread⟩
  · exact ⟨nofun, nofun, nofun, nofun, nofun⟩
  have hbefore : ∀ p, some before.utf8ByteSize = some p → String.Pos.Raw.IsValid text ⟨p⟩ := by
    rintro _ ⟨⟩
    exact isValid_of_append htext rfl
  have hafter : text = before ++ String.ofList after.toList := by rw [htext, String.ofList_toList]
  generalize after.toList = rest at hunread hafter
  cases hunread with
  | sign expected c rest =>
    exact ⟨hbefore, fun hsome => (hnone hsome).elim, nofun, nofun, nofun⟩
  | opening rest =>
    refine ⟨?_, fun hsome => (hnone hsome).elim, nofun, nofun, nofun⟩
    rintro _ ⟨⟩
    rw [String.ofList_append, String.ofList_toList, ← String.append_assoc] at hafter
    exact isValid_of_append hafter (String.utf8ByteSize_append ..)
  | @unterminated code hopen =>
    refine ⟨hbefore, fun hsome => (hnone hsome).elim, nofun, ?_, nofun⟩
    rintro _ ⟨⟩
    refine ⟨before, String.ofList code, tokens, ?_, rfl, hspread, fun body rest hbody => ?_⟩
    · rw [hafter, String.ofList_append, String.ofList_toList, String.append_assoc]
    · rw [String.toList_ofList]
      exact hopen body rest hbody
  | character c rest =>
    refine ⟨hbefore, fun hsome => (hnone hsome).elim, nofun, nofun, ?_⟩
    rintro _ _ ⟨⟩
    refine ⟨before, String.ofList rest, ?_, rfl⟩
    rw [hafter, String.ofList_cons, String.append_assoc]

/-- A text that has tokens is refused at one of them. -/
theorem pointsInto_of_blames (htokens : tokenize text = .ok tokens) (hblames : e.Blames tokens)
    (hposition : ∀ p, e.position? = some p → IsTokenOffset text p) : e.PointsInto text := by
  refine ⟨fun p hp => (hposition p hp).isValid, fun _ => hposition, ?_, ?_, ?_⟩
  · rintro fault p rfl
    obtain ⟨suffix, hmem⟩ := hblames
    exact ⟨tokens, suffix, htokens, hmem⟩
  · rintro p rfl
    exact hblames.elim
  · rintro c p rfl
    exact hblames.elim

theorem Program.pointsInto_of_read (h : Program.read limits text = .error e) :
    e.PointsInto text := by
  by_cases hsize : text.utf8ByteSize ≤ limits.maxInputBytes
  · cases htokens : tokenize text with
    | error fault =>
      rw [Program.read, if_neg (Nat.not_lt.mpr hsize), htokens] at h
      cases h
      exact pointsInto_of_fault htokens
    | ok tokens =>
      refine pointsInto_of_blames htokens (Program.blames_of_read htokens hsize h) fun p hp => ?_
      have halike := Program.read_alike hsize hsize htokens htokens rfl
      rw [h] at halike
      exact isTokenOffset_of_sameToken htokens (halike.of_error.at_position hp)
  · rw [Program.read, if_pos (Nat.not_le.mp hsize)] at h
    cases h
    refine ⟨fun _ h => ?_, fun _ _ h => ?_, fun _ _ h => ?_, fun _ h => ?_, fun _ _ h => ?_⟩ <;>
      cases h

end Reading

/-! ## Errors of a script -/

/-- The offsets of a program that was read are those of tokens, and so are those of its errors. -/
theorem Program.isTokenOffset_of_script {limits : Limits} {text : String} {program : Program}
    (hread : Program.read limits text = .ok program) {templates : Templates} {target : Target}
    {e : EmitError} (h : program.script templates target = .error e) {p : Nat}
    (hp : e.position? = some p) : IsTokenOffset text p := by
  obtain ⟨hsize, tokens, htokens⟩ : text.utf8ByteSize ≤ limits.maxInputBytes ∧
      ∃ tokens, tokenize text = .ok tokens := by
    unfold Program.read at hread
    split at hread
    · cases hread
    · obtain ⟨tokens, htokens, -⟩ := bind_eq_ok.mp hread
      exact ⟨Nat.not_lt.mp ‹_›, tokens, htokens⟩
  have halike := Program.read_alike hsize hsize htokens htokens rfl
  rw [hread] at halike
  have hunique := sameToken_biUnique (tokenize_pairwise htokens) (tokenize_pairwise htokens)
  refine isTokenOffset_of_sameToken htokens (EmitError.Alike.at_position ?_ hp)
  have hscript : Matches (EmitError.Alike (SameToken tokens tokens)) Eq
      (program.script templates target) (program.script templates target) := by
    cases target with
    | facility =>
      exact (Facility.Domain.ofProgram_alike halike.of_ok).map_eq templates.facilityScript
    | imitation =>
      exact (Imitation.methodsText_alike hunique halike.of_ok).map_eq templates.imitationScript
  rw [h] at hscript
  exact hscript.of_error

/-- **Errors point into the text.** An error of a text has an offset at which a character of the text
begins or the text ends, and if the text has tokens the offset is that of one of them. A continuation
that is refused is a token, code without an end begins with its word, and a character that is refused
is the one at the offset. An error of a program that was read, for either target, has the offset of
one of the tokens. -/
theorem diagnostics_point_into_text (limits : Limits) (text : String) :
    (∀ e, Program.read limits text = .error e → e.PointsInto text) ∧
    ∀ program, Program.read limits text = .ok program → ∀ templates target e,
      program.script templates target = .error e → ∀ p, e.position? = some p →
        String.Pos.Raw.IsValid text ⟨p⟩ ∧ IsTokenOffset text p := by
  refine ⟨fun e h => Program.pointsInto_of_read h, ?_⟩
  intro program hread templates target e h p hp
  have hoffset := Program.isTokenOffset_of_script hread h hp
  exact ⟨hoffset.isValid, hoffset⟩

/-- Code without an end, after a character of several bytes. -/
def unendedText : String := "RULES\x7ba(PYTHON(#é#),PYTHON(#x)):=b()\x7d"

/-- A continuation that reaches too far back. -/
def farText : String := "RULES\x7ba(x):=b(PYTHON(#é#),CONT2)\x7d"

/-- A variable that nothing binds. -/
def looseText : String := "RULES\x7ba(x):=b(PYTHON(#é#),y)\x7d"

/-- Each of these texts is refused for its fault, where the fault is. -/
theorem unended_far_loose :
    (Program.read ⟨60, 1⟩ unendedText = .error (.unterminatedPython 21) ∧
      (ReadError.unterminatedPython 21).PointsInto unendedText) ∧
    (Program.read ⟨60, 1⟩ farText = .error (.invalidContinuation .beforeFirst 27) ∧
      (ReadError.invalidContinuation .beforeFirst 27).PointsInto farText) ∧
    ∃ program, Program.read ⟨60, 1⟩ looseText = .ok program ∧
      program.script ⟨"", ""⟩ .imitation = .error (.unboundVariable "y" 12) ∧
      IsTokenOffset looseText 12 := by
  have hunended : Program.read ⟨60, 1⟩ unendedText = .error (.unterminatedPython 21) := by
    decide +kernel
  have hfar : Program.read ⟨60, 1⟩ farText = .error (.invalidContinuation .beforeFirst 27) := by
    decide +kernel
  obtain ⟨program, hread, hscript⟩ : ∃ program, Program.read ⟨60, 1⟩ looseText = .ok program ∧
      program.script ⟨"", ""⟩ .imitation = .error (.unboundVariable "y" 12) :=
    map_eq_ok.mp (by decide +kernel)
  refine ⟨⟨hunended, (diagnostics_point_into_text ⟨60, 1⟩ unendedText).1 _ hunended⟩,
    ⟨hfar, (diagnostics_point_into_text ⟨60, 1⟩ farText).1 _ hfar⟩, program, hread, hscript, ?_⟩
  exact ((diagnostics_point_into_text ⟨60, 1⟩ looseText).2 _ hread _ _ _ hscript _ rfl).2

end CausalRules
