import CausalRules.Proofs.CommandLine.Checking
import CausalRules.Proofs.Message
import CausalRules.Proofs.Reading.Printed

/-!
# Token listings

The command that lists tokens prints one message for each, with the offset put in after the text of
the token. So inline code is shown with changes if it has the place of the offset in it.

- `tokenLine_eq`: the line of a token, with its text as it is `shown`.
- `shown_eq_text_iff`, `places_text_eq_zero`: when a text is shown as it is written.
- `runTokens_of_gives`: the command prints these lines, wherever events are logged.
- `messages_show`: what messages and listings show of values.
-/

namespace CausalRules.CommandLine

open Message
open World (Step)

/-! ## The line of a token -/

theorem open_not_mem_kind (token : Token) : '\x7b' ∉ token.kind.toList := by
  cases token with
  | _ => simp [Token.kind]

theorem isPlain_position : IsPlain "position" := by
  decide

/-- The text of a token as a listing shows it, with its offset in the places of `position`. -/
def shown (token : Located) : String :=
  Text.replaceAll (place "position") (toString token.position) token.token.text

/-- **A token's line** has the kind, the text and the offset of the token, the text as it is
shown. -/
theorem tokenLine_eq (token : Located) :
    tokenLine token = "Token(" ++ token.token.kind ++ ", " ++ shown token ++ ") @" ++
      toString token.position ++ "\n" := by
  obtain ⟨token, position⟩ := token
  have htemplate : (Message.template "tokens.line").toList =
      "Token(".toList ++ (mark "kind" ++ (", ".toList ++ (mark "value" ++
        (")".toList ++ (" @".toList ++ (mark "position" ++ [])))))) := by
    decide
  have hprefix : '\x7b' ∉ "Token(".toList ++ (token.kind.toList ++ ", ".toList) := by
    simp [open_not_mem_kind]
  have hkind : substituteChars [("kind", token.kind)] (Message.template "tokens.line").toList =
      ("Token(".toList ++ (token.kind.toList ++ ", ".toList)) ++
        (mark "value" ++ (")".toList ++ (" @".toList ++ (mark "position" ++ [])))) := by
    rw [htemplate, substituteChars_between _ (by decide) (by decide)]
    simp only [List.append_assoc]
  have hvalue := substituteChars_between token.text hprefix
    (by decide : places "value" (")".toList ++ (" @".toList ++ (mark "position" ++ []))) = 0)
  have hoffset : substituteChars [("position", toString position)]
      (" @".toList ++ (mark "position" ++ [])) =
        " @".toList ++ ((toString position).toList ++ []) :=
    substituteChars_between _ (by decide) rfl
  -- the places of the last name in the text of the token end before the parenthesis
  have hposition : substituteChars [("position", toString position)]
      (("Token(".toList ++ (token.kind.toList ++ ", ".toList)) ++
        (token.text.toList ++ (")".toList ++ (" @".toList ++ (mark "position" ++ []))))) =
      ("Token(".toList ++ (token.kind.toList ++ ", ".toList)) ++
        (substituteChars [("position", toString position)] token.text.toList ++
          (')' :: (" @".toList ++ ((toString position).toList ++ [])))) := by
    rw [substituteChars_append_of_not_mem hprefix, ← hoffset]
    exact congrArg _ (substituteChars_append_cons (by decide))
  unfold tokenLine message Message.fill shown
  simp only [List.foldl_cons, List.foldl_nil, Message.replaceAll_eq]
  apply String.toList_inj.mp
  simp only [substitute, String.toList_append, String.toList_ofList, hkind, hvalue, hposition]
  simp

/-- Only inline code can have a place of `position` in it. -/
theorem places_text_eq_zero {token : Token} (h : token.Legible)
    (hcode : ∀ code, token ≠ .python code) : places "position" token.text.toList = 0 := by
  have hbrace : ∀ {text : List Char}, '\x7b' ∉ text → places "position" text = 0 := fun htext => by
    simpa using places_append_of_not_mem "position" htext []
  cases token with
  | ident name =>
    refine hbrace fun hmem => ?_
    obtain ⟨c, cs, hchars, hc, hcs⟩ := h.shape
    rw [Token.text, hchars] at hmem
    rcases List.mem_cons.mp hmem with rfl | hmem
    · cases hc
    · exact absurd (hcs _ hmem) (by decide)
  | digits run => exact hbrace fun hmem => absurd (h.digits _ hmem) (by decide)
  | continuation suffix =>
    refine hbrace fun hmem => ?_
    rw [Token.text, String.toList_append] at hmem
    rcases List.mem_append.mp hmem with hmem | hmem
    · exact absurd hmem (by decide)
    · cases h _ hmem
  | python code => exact absurd rfl (hcode code)
  | _ => decide

/-- A token is shown as it is written unless it is inline code with a place of `position`. -/
theorem shown_eq_text_iff (token : Located) :
    shown token = token.token.text ↔ places "position" token.token.text.toList = 0 := by
  refine replaceAll_eq_self_iff isPlain_position fun hmem => ?_
  rw [Nat.toString_eq_ofList_toDigits, String.toList_ofList] at hmem
  cases Nat.isDigit_of_mem_toDigits (by omega) (by omega) hmem

/-! ## The command -/

section Printing

variable [Libraries] {v w : World} {limits : Limits} {source : Source} {found : SourceText}
  {logger : Logger World.Handle}

/-- Logging prints nothing where results are printed, wherever its lines go. -/
theorem note_run (h : logger.Writes w) (events : List Log.Event)
    (hv : v.Resembles (w.withTree v.tree)) : ∃ v',
    (note logger events : Run Step Unit).run v = (.ok (), v') ∧
      v'.Resembles (w.withTree v'.tree) ∧ v'.printed = v.printed := by
  induction events generalizing v with
  | nil => exact ⟨v, rfl, hv, rfl⟩
  | cons event events ih =>
    obtain ⟨between, hone, hbetween, hprinted, -⟩ := noteOne_run h event hv
    obtain ⟨v', hrest, hv', hprinted'⟩ := ih hbetween
    refine ⟨v', ?_, hv', hprinted'.trans hprinted⟩
    show (noteOne logger event >>= fun _ => note logger events : Run Step Unit).run v = _
    rw [run_bind, bind_apply hone]
    exact hrest

/-- The text of a program is taken from where it is, wherever events are logged. -/
theorem readSource_of_gives (hlogger : logger.Writes w) (h : source.Gives w limits found) : ∃ v,
    (readSource logger limits source : Run Step _).run w = (.ok found, v) ∧
      v.Resembles (w.withTree v.tree) ∧ v.printed = w.printed := by
  cases source with
  | text given =>
    obtain ⟨rfl, hsize⟩ := h
    simp only [readSource, if_neg (Nat.not_lt_of_le hsize)]
    exact ⟨w, rfl, .refl w, rfl⟩
  | file path =>
    obtain ⟨label, text⟩ := found
    obtain ⟨rfl, hholds⟩ := h
    unfold readSource
    dsimp only
    rw [run_lift_bind]
    refine (asks_readAtMost w limits.maxInputBytes label).before (.refl w)
      (P := fun after => ∃ v, after = (Except.ok (⟨label, text⟩ : SourceText), v) ∧
        v.Resembles (w.withTree v.tree) ∧ v.printed = w.printed) ?_
    intro r v hv hprinted hread
    obtain rfl : r = .ok text.toUTF8 := (hread _).mpr ⟨hholds.reads, hholds.size⟩
    dsimp only
    rw [fromUTF8?_eq_some_iff.mpr rfl]
    obtain ⟨v', hnote, hv', hprinted'⟩ :=
      note_run hlogger [.sourceRead label text.utf8ByteSize] hv.withTree
    refine ⟨v', ?_, hv', hprinted'.trans hprinted⟩
    dsimp only
    rw [run_bind, bind_apply hnote]
    rfl

/-- The lines of the tokens are printed, if they can be. -/
theorem runTokens_of_gives (hlogger : logger.Writes w) (settings : Settings) {tokens : List Located}
    (h : source.Gives w settings.limits found) (htokens : tokenize found.text = .ok tokens)
    (hprint : ∀ tree, w.Grants tree (.print (String.join (tokens.map tokenLine)))) : ∃ v,
    (runTokens logger settings source : Run Step _).run w = (.ok .success, v) ∧
      v.printed = w.printed ++ String.join (tokens.map tokenLine) := by
  -- the read may have been logged, so the world is another one; what it printed is the same
  obtain ⟨v, hread, hv, hprinted⟩ := readSource_of_gives hlogger h
  have hprints : Looks (w.withTree v.tree) (ExceptT.run (do
      print (String.join (tokens.map tokenLine))
      return Verdict.success) : Step _) fun r out =>
        r = .ok .success ∧ out = String.join (tokens.map tokenLine) :=
    looks_print_bind (fun _ => looks_return ⟨rfl, String.append_empty⟩)
      fun hrefused => (hrefused (hprint _)).elim
  obtain ⟨-, out, hout, hsuccess, rfl⟩ := hprints v hv
  have hrun : (runTokens logger settings source : Run Step _).run w =
      (ExceptT.run (do
        print (String.join (tokens.map tokenLine))
        return Verdict.success) : Step _) v := by
    unfold runTokens
    rw [run_bind, bind_apply hread]
    dsimp only
    rw [htokens]
  rw [hrun]
  exact ⟨_, Prod.ext hsuccess rfl, hout.trans (by rw [hprinted])⟩

/-- **What is shown of values.** A message is its text with all values put in at once, if the names
are distinct and no value makes a place of a name that comes after it. A token listing that can be
printed has the kind, the text and the offset of each token; only inline code that has a place of
`position` is shown with the offset there. -/
theorem messages_show (key : String) (values : List (String × String)) (w : World)
    (logger : Logger World.Handle) (settings : Settings) (source : Source) (found : SourceText)
    (tokens : List Located) :
    ((values.map Prod.fst).Nodup → (∀ value ∈ values, IsPlain value.1) →
      StaysApart values (template key) → message key values = substitute values (template key)) ∧
    (source.Gives w settings.limits found → tokenize found.text = .ok tokens →
      (logger.Writes w → (∀ tree, w.Grants tree (.print (String.join (tokens.map tokenLine)))) →
        ∃ v, (Command.run logger settings (.tokens source) : Run Step _).run w =
            (.ok .success, v) ∧
          v.printed = w.printed ++ String.join (tokens.map fun token =>
            "Token(" ++ token.token.kind ++ ", " ++ shown token ++ ") @" ++
              toString token.position ++ "\n")) ∧
      ∀ token ∈ tokens,
        (shown token = token.token.text ↔ places "position" token.token.text.toList = 0) ∧
        ((∀ code, token.token ≠ .python code) → shown token = token.token.text)) := by
  refine ⟨fill_eq_substitute, fun hgives htokens => ⟨fun hlogger hprint => ?_,
    fun token htoken => ⟨shown_eq_text_iff token, fun hcode => ?_⟩⟩⟩
  · obtain ⟨v, hrun, hprinted⟩ := runTokens_of_gives hlogger settings hgives htokens hprint
    exact ⟨v, hrun, by rw [hprinted, funext tokenLine_eq]⟩
  · exact (shown_eq_text_iff token).mpr
      (places_text_eq_zero (tokenize_legible htokens token htoken) hcode)

end Printing

/-- The text of an error may have the place of a name that comes before its own. -/
theorem quoting_shows :
    message "diagnostic.located" [("source", "a.txt"), ("line", "1"), ("column", "7"),
      ("error", "unexpected \x7bsource\x7d")] = "a.txt:1:7: unexpected \x7bsource\x7d" ∧
    ∃ v, (Command.run Logger.silent {} (.tokens (.text "PYTHON(#\x7bline\x7d#)")) : Run Step _).run
        unwritten = (.ok .success, v) ∧
      v.printed = "Token(PYTHON, PYTHON(#\x7bline\x7d#)) @0\nToken(EOF, end of input) @16\n" := by
  obtain ⟨hmessage, hlisting⟩ := messages_show "diagnostic.located" [("source", "a.txt"),
    ("line", "1"), ("column", "7"), ("error", "unexpected \x7bsource\x7d")] unwritten Logger.silent {}
    (.text "PYTHON(#\x7bline\x7d#)") ⟨message "input.text_label" [], "PYTHON(#\x7bline\x7d#)"⟩
    [⟨.python "\x7bline\x7d", 0⟩, ⟨.endOfInput, 16⟩]
  constructor
  · rw [hmessage (by decide) (by decide) (by decide +kernel)]
    decide +kernel
  · obtain ⟨hlisting, -⟩ := hlisting ⟨rfl, by decide⟩ (by decide +kernel)
    obtain ⟨v, hrun, hprinted⟩ :=
      hlisting (Logger.silent_toTerminal unwritten).writes fun _ => rfl
    exact ⟨v, hrun, hprinted.trans (by decide +kernel)⟩

/-- A place of `position` in inline code is shown with the offset in it. The message with all values
put in at once would show the code as it is written. -/
theorem position_overwritten :
    (∃ v, (Command.run Logger.silent {} (.tokens (.text "PYTHON(#\x7bposition\x7d#)")) : Run Step _).run
        unwritten = (.ok .success, v) ∧
      v.printed = "Token(PYTHON, PYTHON(#0#)) @0\nToken(EOF, end of input) @20\n") ∧
    message "tokens.line" [("kind", "PYTHON"), ("value", "PYTHON(#\x7bposition\x7d#)"),
      ("position", "0")] ≠
    substitute [("kind", "PYTHON"), ("value", "PYTHON(#\x7bposition\x7d#)"), ("position", "0")]
      (template "tokens.line") := by
  have htokens : tokenize "PYTHON(#\x7bposition\x7d#)" =
      .ok [⟨.python "\x7bposition\x7d", 0⟩, ⟨.endOfInput, 20⟩] := by decide +kernel
  have hgives : Source.Gives unwritten Limits.caps
      (.text "PYTHON(#\x7bposition\x7d#)") ⟨message "input.text_label" [],
        "PYTHON(#\x7bposition\x7d#)"⟩ := ⟨rfl, by decide⟩
  obtain ⟨v, hrun, hprinted⟩ := runTokens_of_gives
    (Logger.silent_toTerminal unwritten).writes {} hgives htokens fun _ => rfl
  exact ⟨⟨v, hrun, hprinted.trans (by decide +kernel)⟩, by decide +kernel⟩

end CausalRules.CommandLine
