import StackLang.Text.Unprintable

/-!
# Quoted texts

A text between double quotes, as listings of compiled code show it: quotes and backslashes are
escaped, line breaks, tabs and the zero character have letters, and every other character that
does not print is written by its number.

* `quotedChar_self`: a character that prints and is neither `"` nor `\` stands for itself.
-/

namespace StackLang.Text

/-- One character inside of the quotes. -/
def quotedChar (c : Char) : List Char :=
  if c = '"' then ['\\', '"']
  else if c = '\\' then ['\\', '\\']
  else if c = '\n' then ['\\', 'n']
  else if c = '\r' then ['\\', 'r']
  else if c = '\t' then ['\\', 't']
  else if c = '\x00' then ['\\', '0']
  else if isUnprintable c then ['\\', 'u', '{'] ++ Nat.toDigits 16 c.toNat ++ ['}']
  else [c]

/-- The text between quotes. -/
def quoted (s : String) : String :=
  String.ofList ('"' :: s.toList.flatMap quotedChar ++ ['"'])

theorem quotedChar_self {c : Char} (hp : isUnprintable c = false) (hq : c ≠ '"') (hb : c ≠ '\\') :
    quotedChar c = [c] := by
  have control (d : Char) (h : isUnprintable d = true) : c ≠ d := by
    rintro rfl
    simp [h] at hp
  simp [quotedChar, hp, hq, hb, control '\n' (by decide), control '\r' (by decide),
    control '\t' (by decide), control '\x00' (by decide)]

example : quoted "a\"b\\c\n\x7f" = "\"a\\\"b\\\\c\\n\\u\x7b7f\x7d\"" := by decide +kernel

end StackLang.Text
