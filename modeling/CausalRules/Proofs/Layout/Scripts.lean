import CausalRules.Proofs.Layout.Facility
import CausalRules.Proofs.Layout.Imitation
import CausalRules.Proofs.Layout.Reading

/-!
# Scripts do not depend on layout

Blanks may be put between tokens, or left out where they are not needed, without any effect on the
scripts that are made from a text.

- `scripts_alike`: two texts with the same tokens give the same scripts.
- `painting_alike`: two layouts of one rule.
-/

namespace CausalRules

/-- **Scripts do not depend on layout.** Let two texts that are small enough have the same tokens.
Then both spell a program, or both are refused for the same reason at the same token. The programs
are the same but for offsets, and each script is the same for both, or there is none for the same
reason at the same token. -/
theorem scripts_alike {limits : Limits} {text text' : String}
    (hsize : text.utf8ByteSize ≤ limits.maxInputBytes)
    (hsize' : text'.utf8ByteSize ≤ limits.maxInputBytes) {tokens tokens' : List Located}
    (htokens : tokenize text = .ok tokens) (htokens' : tokenize text' = .ok tokens')
    (hsame : tokens.map Located.token = tokens'.map Located.token) :
    Matches (ReadError.Alike (SameToken tokens tokens'))
      (fun program program' =>
        program.Alike (SameToken tokens tokens') program' ∧
        Matches (EmitError.Alike (SameToken tokens tokens')) Eq
          (Facility.Domain.ofProgram program) (Facility.Domain.ofProgram program') ∧
        Matches (EmitError.Alike (SameToken tokens tokens')) Eq
          (Imitation.methodsText program) (Imitation.methodsText program'))
      (Program.read limits text) (Program.read limits text') := by
  have hunique := sameToken_biUnique (tokenize_pairwise htokens) (tokenize_pairwise htokens')
  refine (Program.read_alike hsize hsize' htokens htokens' hsame).mono fun _ _ halike => ?_
  exact ⟨halike, Facility.Domain.ofProgram_alike halike,
    Imitation.methodsText_alike hunique halike⟩

/-- Things are painted red. -/
def denseText : String :=
  "RULES\x7bif(c='red'):paint(x):=dip(x,c)\x7d"

/-- The same with blanks and line ends. -/
def spreadText : String :=
  "RULES \x7b\n  if (c = 'red'):\n    paint(x) := dip(x, c)\n\x7d\n"

/-- The tokens of `denseText` and `spreadText`. -/
def paintingTokens : List Token :=
  [.rulesWord, .openBrace, .ifWord, .openParen, .ident "c", .equal, .quote, .ident "red", .quote,
    .closeParen, .colon, .ident "paint", .openParen, .ident "x", .closeParen, .causes, .ident "dip",
    .openParen, .ident "x", .comma, .ident "c", .closeParen, .closeBrace, .endOfInput]

/-- Both layouts are read, and the methods are the same. -/
theorem painting_alike : ∃ tokens tokens' program program',
    tokenize denseText = .ok tokens ∧ tokenize spreadText = .ok tokens' ∧
    Program.read ⟨60, 1⟩ denseText = .ok program ∧
    Program.read ⟨60, 1⟩ spreadText = .ok program' ∧
    program.Alike (SameToken tokens tokens') program' ∧
    Matches (EmitError.Alike (SameToken tokens tokens')) Eq
      (Imitation.methodsText program) (Imitation.methodsText program') := by
  obtain ⟨tokens, htokens, hsame⟩ : ∃ tokens, tokenize denseText = .ok tokens ∧
      tokens.map Located.token = paintingTokens :=
    map_eq_ok.mp (by decide +kernel)
  obtain ⟨tokens', htokens', hsame'⟩ : ∃ tokens, tokenize spreadText = .ok tokens ∧
      tokens.map Located.token = paintingTokens :=
    map_eq_ok.mp (by decide +kernel)
  obtain ⟨program, hread⟩ : ∃ program, Program.read ⟨60, 1⟩ denseText = .ok program :=
    exists_of_isOk (by decide +kernel)
  obtain ⟨program', hread'⟩ : ∃ program, Program.read ⟨60, 1⟩ spreadText = .ok program :=
    exists_of_isOk (by decide +kernel)
  have hsize : denseText.utf8ByteSize ≤ (⟨60, 1⟩ : Limits).maxInputBytes := by decide +kernel
  have hsize' : spreadText.utf8ByteSize ≤ (⟨60, 1⟩ : Limits).maxInputBytes := by decide +kernel
  have halike := scripts_alike hsize hsize' htokens htokens' (hsame.trans hsame'.symm)
  rw [hread, hread'] at halike
  obtain ⟨hprogram, -, hmethods⟩ := halike.of_ok
  exact ⟨tokens, tokens', program, program', htokens, htokens', hread, hread', hprogram, hmethods⟩

end CausalRules
