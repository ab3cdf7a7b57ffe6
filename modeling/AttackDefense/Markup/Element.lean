/-!
# Marked-up documents

An element has a tag, attributes, and either a text or a block of elements. `Element.render` writes
one element a line, a block indented by a tab between its tags. The five characters that mean
something in markup are written as entities (`escape`) and can be read back (`unescape`).
-/

namespace AttackDefense.Markup

/-! ## Entities -/

/-- The characters that stand for one character of a text. -/
def escapeChar (c : Char) : List Char :=
  if c = '&' then ['&', 'a', 'm', 'p', ';']
  else if c = '<' then ['&', 'l', 't', ';']
  else if c = '>' then ['&', 'g', 't', ';']
  else if c = '\x22' then ['&', 'q', 'u', 'o', 't', ';']
  else if c = '\x27' then ['&', 'a', 'p', 'o', 's', ';']
  else [c]

def escape (text : String) : String := String.ofList (text.toList.flatMap escapeChar)

/-- The text that was escaped. -/
def unescape : List Char → List Char
  | '&' :: 'a' :: 'm' :: 'p' :: ';' :: rest => '&' :: unescape rest
  | '&' :: 'l' :: 't' :: ';' :: rest => '<' :: unescape rest
  | '&' :: 'g' :: 't' :: ';' :: rest => '>' :: unescape rest
  | '&' :: 'q' :: 'u' :: 'o' :: 't' :: ';' :: rest => '\x22' :: unescape rest
  | '&' :: 'a' :: 'p' :: 'o' :: 's' :: ';' :: rest => '\x27' :: unescape rest
  | c :: rest => c :: unescape rest
  | [] => []

/-! ## Elements -/

inductive Element where
  | text (tag : String) (attributes : List (String × String)) (content : String)
  | block (tag : String) (attributes : List (String × String)) (children : List Element)

def indentation (depth : Nat) : String := String.ofList (List.replicate depth '\t')

def openTag (tag : String) (attributes : List (String × String)) : String :=
  attributes.foldl (fun out (k, v) => out ++ " " ++ k ++ "=\"" ++ escape v ++ "\"") ("<" ++ tag) ++ ">"

def closeTag (tag : String) : String := "</" ++ tag ++ ">"

mutual

/-- Writes an element behind what is written already. -/
def Element.write (depth : Nat) (out : String) : Element → String
  | .text tag attributes content =>
    out ++ indentation depth ++ openTag tag attributes ++ escape content ++ closeTag tag ++ "\n"
  | .block tag attributes children =>
    writeAll (depth + 1) (out ++ indentation depth ++ openTag tag attributes ++ "\n") children ++
      indentation depth ++ closeTag tag ++ "\n"

def writeAll (depth : Nat) (out : String) : List Element → String
  | [] => out
  | e :: rest => writeAll depth (e.write depth out) rest

end

/-- The text of an element. -/
def Element.render (e : Element) : String := e.write 0 ""

end AttackDefense.Markup
