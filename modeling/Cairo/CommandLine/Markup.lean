/-!
# Markup

A text for the terminal may hold tags between square brackets, which set its style and are not
shown.  A tag begins with a lower-case letter or with one of the marks `#`, `/` and `@`; a
backslash before the bracket keeps it as it is.
-/

namespace Cairo.CommandLine

/-- The character may stand first in a tag. -/
def opensTag (c : Char) : Bool := ('a' ≤ c && c ≤ 'z') || c == '#' || c == '/' || c == '@'

/-- The text behind a tag, if the text, behind its opening bracket, begins with one. -/
def afterTag? : List Char → Option (List Char)
  | [] => none
  | c :: rest =>
    if opensTag c then
      match rest.span fun c => c ≠ ']' && c ≠ '[' with
      | (_, ']' :: rest) => some rest
      | _ => none
    else none

/-- The characters of a text without its tags; the rounds bound its length. -/
def withoutTags : Nat → List Char → List Char
  | 0, cs => cs
  | _, [] => []
  | rounds + 1, '\\' :: '[' :: rest =>
    match afterTag? rest with
    | some _ => '[' :: withoutTags rounds rest
    | none => '\\' :: '[' :: withoutTags rounds rest
  | rounds + 1, '[' :: rest =>
    match afterTag? rest with
    | some after => withoutTags rounds after
    | none => '[' :: withoutTags rounds rest
  | rounds + 1, c :: rest => c :: withoutTags rounds rest

/-- A text as the terminal shows it. -/
def shownText (s : String) : String := String.ofList (withoutTags s.length s.toList)

end Cairo.CommandLine
