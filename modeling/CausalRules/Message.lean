import CausalRules.Text.Replace

/-!
# Messages

Every sentence that the command line prints is in one catalog, with named places for values.

- `Message.template`: the text of a key; an unknown key is its own text.
- `Message.fill`: puts values into their places, one name after the other.
- `message`: the text of a key with its values.
-/

namespace CausalRules

namespace Message

/-- Every key with its text. -/
def catalog : List (String × String) := [
  ("main.version", "causal-compiler \x7bversion\x7d"),
  ("output.stream.stdout", "stdout"),
  ("output.stream.stderr", "stderr"),
  ("output.stream.unknown", "output"),
  ("output.write_failed", "Failed to write to \x7bstream\x7d: \x7berror\x7d"),
  ("config.validate.ok", "Config is valid."),
  ("config.load_failed", "Failed to load config: \x7berror\x7d"),
  ("logging.init_failed", "Failed to initialise logging: \x7berror\x7d"),
  ("input.missing", "Provide --input FILE or --text SOURCE."),
  ("input.text_label", "<text>"),
  ("input.source_kind", "causal program"),
  ("input.output_kind", "generated script"),
  ("input.read_failed", "Failed to read \x7bkind\x7d at \x7bpath\x7d: \x7berror\x7d"),
  ("input.read_too_large",
    "Refusing to read \x7bkind\x7d at \x7bpath\x7d because it is \x7bsize\x7d bytes " ++
    "(limit \x7blimit\x7d)."),
  ("input.text_too_large", "Inline source is \x7bsize\x7d bytes (limit \x7blimit\x7d)."),
  ("input.not_utf8", "\x7bkind\x7d at \x7bpath\x7d is not valid UTF-8."),
  ("diagnostic.located", "\x7bsource\x7d:\x7bline\x7d:\x7bcolumn\x7d: \x7berror\x7d"),
  ("diagnostic.plain", "\x7bsource\x7d: \x7berror\x7d"),
  ("template.load_failed", "Failed to load \x7btarget\x7d template: \x7berror\x7d"),
  ("compile.out_dir_failed", "Failed to create output directory \x7bpath\x7d: \x7berror\x7d"),
  ("compile.wrote", "Wrote \x7btarget\x7d script to \x7bpath\x7d"),
  ("compile.target_failed", "Failed to generate \x7btarget\x7d script: \x7berror\x7d"),
  ("compile.write_failed", "Failed to write \x7bpath\x7d: \x7berror\x7d"),
  ("check.up_to_date", "\x7btarget\x7d script at \x7bpath\x7d is up to date"),
  ("check.drift", "\x7btarget\x7d script at \x7bpath\x7d is out of date"),
  ("check.missing", "\x7btarget\x7d script at \x7bpath\x7d does not exist"),
  ("tokens.line", "Token(\x7bkind\x7d, \x7bvalue\x7d) @\x7bposition\x7d"),
  ("parse.serialize_failed", "Failed to serialise the syntax tree: \x7berror\x7d")]

/-- The text of a key; an unknown key is its own text. -/
def template (key : String) : String :=
  (catalog.lookup key).getD key

/-- The place of a name in a text. -/
def place (name : String) : String := "\x7b" ++ name ++ "\x7d"

/-- Puts values into their places in order. Places that stand in a value are places too for the
names that come after it. -/
def fill (values : List (String × String)) (text : String) : String :=
  values.foldl (fun text value => Text.replaceAll (place value.1) value.2 text) text

end Message

/-- The text of a key with its values. -/
def message (key : String) (values : List (String × String)) : String :=
  Message.fill values (Message.template key)

end CausalRules
