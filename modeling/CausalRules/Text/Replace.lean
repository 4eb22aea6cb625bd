/-!
# Replacing a mark in a text

- `splitAtMark?`: the text before and after the first place where a mark stands.
- `replaceFirst`: one mark replaced.
- `replaceAll`: every mark replaced, from left to right and without overlap.
-/

namespace CausalRules.Text

/-- Looks for the mark in what is left, with the characters passed so far held in reverse. -/
def findMark (mark passed : List Char) : List Char → Option (List Char × List Char)
  | [] => if mark.isEmpty then some (passed.reverse, []) else none
  | c :: rest =>
    if mark.isPrefixOf (c :: rest) then some (passed.reverse, (c :: rest).drop mark.length)
    else findMark mark (c :: passed) rest

/-- The characters before and after the first place where the mark stands. -/
def splitAtMark? (mark text : List Char) : Option (List Char × List Char) :=
  findMark mark [] text

/-- Whether the mark stands anywhere in the text. -/
def holdsMark (mark text : String) : Bool :=
  (splitAtMark? mark.toList text.toList).isSome

/-- The text with its first mark replaced, or the text itself when the mark is absent. -/
def replaceFirst (mark value text : String) : String :=
  match splitAtMark? mark.toList text.toList with
  | some (before, after) => String.ofList before ++ value ++ String.ofList after
  | none => text

/-- Replaces marks in what is left. The number says how many characters of a mark that was just
replaced are still to be passed over; the characters written so far are held in reverse. -/
def replaceFrom (mark value : List Char) : List Char → Nat → List Char → List Char
  | [], _, written => written.reverse
  | _ :: rest, pending + 1, written => replaceFrom mark value rest pending written
  | c :: rest, 0, written =>
    if mark.isPrefixOf (c :: rest) then
      replaceFrom mark value rest (mark.length - 1) (value.reverse ++ written)
    else replaceFrom mark value rest 0 (c :: written)

/-- The text with every mark replaced, read from left to right. What replaces a mark is not
searched again. The mark is not empty. -/
def replaceAll (mark value text : String) : String :=
  String.ofList (replaceFrom mark.toList value.toList text.toList 0 [])

end CausalRules.Text
