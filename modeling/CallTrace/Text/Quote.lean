import CallTrace.Text.Printable

/-!
# Quoted text

Texts are quoted in messages. The quote is `'`, or `"` for a text that holds `'` and no `"`.
Inside, the backslash, the quote in use and every character that does not print are escaped.
-/

namespace CallTrace.Text

def quoteOf (s : List Char) : Char :=
  if s.contains '\'' && !s.contains '"' then '"' else '\''

/-- At least `width` hexadecimal digits. -/
def hex (width n : Nat) : List Char := (Nat.toDigits 16 n).leftpad width '0'

def codeEscape (n : Nat) : List Char :=
  if n < 0x100 then '\\' :: 'x' :: hex 2 n
  else if n < 0x10000 then '\\' :: 'u' :: hex 4 n
  else '\\' :: 'U' :: hex 8 n

def escape (q c : Char) : List Char :=
  if c = '\\' ∨ c = q then ['\\', c]
  else if c = '\n' then ['\\', 'n']
  else if c = '\r' then ['\\', 'r']
  else if c = '\t' then ['\\', 't']
  else if isPrintable c then [c]
  else codeEscape c.toNat

def quote (s : String) : String :=
  let q := quoteOf s.toList
  String.ofList (q :: (s.toList.flatMap (escape q) ++ [q]))

/-- A list of texts, quoted, between brackets. -/
def quoteAll (ss : List String) : String := "[" ++ ", ".intercalate (ss.map quote) ++ "]"

theorem append_ne_empty {s : String} (hs : s ≠ "") (t : String) : s ++ t ≠ "" :=
  fun h => hs (String.append_eq_empty_iff.mp h).1

end CallTrace.Text
