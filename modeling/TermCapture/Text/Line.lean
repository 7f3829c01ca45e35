namespace TermCapture.Text

/-- Line feed, vertical tab, form feed, carriage return, the three separators, next line, and the line
and paragraph separators. -/
def endsLine (c : Char) : Bool :=
  [0x0a, 0x0b, 0x0c, 0x0d, 0x1c, 0x1d, 0x1e, 0x85, 0x2028, 0x2029].contains c.toNat

/-- The last line of a text that a line feed will end. A carriage return before it is part of that end. -/
def lastLine (text : String) : String :=
  let cs := text.toList.reverse
  let cs := if cs.head? = some '\r' then cs.drop 1 else cs
  String.ofList (cs.takeWhile (!endsLine ·)).reverse

end TermCapture.Text
