/-! Directed graphs in the DOT language. A name or value is written bare when it is an identifier
or a number and no keyword, or HTML between angle brackets; any other is put in quotes. -/

namespace Cairoscope.Dot

def isLetter (c : Char) : Bool :=
  (decide ('a' ≤ c) && decide (c ≤ 'z')) || (decide ('A' ≤ c) && decide (c ≤ 'Z')) || c = '_'

def isFigure (c : Char) : Bool := decide ('0' ≤ c) && decide (c ≤ '9')

def isIdentifier : List Char → Bool
  | [] => false
  | c :: rest => isLetter c && rest.all fun d => isLetter d || isFigure d

/-- Digits with at most one point, and at least one digit. -/
def isUnsigned (cs : List Char) : Bool :=
  match cs.takeWhile isFigure, cs.dropWhile isFigure with
  | [], '.' :: rest => !rest.isEmpty && rest.all isFigure
  | [], _ => false
  | _, [] => true
  | _, '.' :: rest => rest.all isFigure
  | _, _ => false

def isNumber : List Char → Bool
  | '-' :: rest => isUnsigned rest
  | cs => isUnsigned cs

/-- One line end at the end does not count. -/
def dropLineEnd (cs : List Char) : List Char :=
  match cs.getLast? with
  | some '\n' => cs.dropLast
  | _ => cs

def isHtml : List Char → Bool
  | '<' :: rest => rest.getLast? == some '>' || (dropLineEnd rest).getLast? == some '>'
  | _ => false

def lowerCase (c : Char) : Char :=
  if 'A' ≤ c ∧ c ≤ 'Z' then Char.ofNat (c.toNat + 32) else c

def keywords : List String := ["node", "edge", "graph", "digraph", "subgraph", "strict"]

def isKeyword (cs : List Char) : Bool := keywords.contains (String.ofList (cs.map lowerCase))

/-- Puts a backslash before each quote that has an even number of them in front. `odd` says whether
an odd number of backslashes stands before the text. -/
def escapeQuotes (odd : Bool) : List Char → List Char
  | [] => []
  | c :: rest =>
    if c = '\\' then c :: escapeQuotes (!odd) rest
    else if c = '\x22' && !odd then '\\' :: c :: escapeQuotes false rest
    else c :: escapeQuotes false rest

def isBare (cs : List Char) : Bool :=
  isHtml cs ||
    ((isIdentifier (dropLineEnd cs) || isNumber (dropLineEnd cs)) && !isKeyword cs)

def quote (s : String) : String :=
  let cs := s.toList
  if isBare cs then s else "\x22" ++ String.ofList (escapeQuotes false cs) ++ "\x22"

/-- The text before the first colon, and the text after it if there is a colon. -/
def cutColon (cs : List Char) : List Char × Option (List Char) :=
  match cs.dropWhile (· ≠ ':') with
  | [] => (cs, none)
  | _ :: rest => (cs.takeWhile (· ≠ ':'), some rest)

/-- The end of an edge: a node, and after colons a place in it and a compass point. -/
def quoteEnd (s : String) : String :=
  let (node, rest) := cutColon s.toList
  let head := quote (String.ofList node)
  match rest with
  | none | some [] => head
  | some rest =>
    let (place, compass) := cutColon rest
    let head := head ++ ":" ++ quote (String.ofList place)
    match compass with
    | none | some [] => head
    | some c => head ++ ":" ++ String.ofList c

abbrev Attributes := List (String × String)

def attributeText (a : String × String) : String := quote a.1 ++ "=" ++ quote a.2

def Attributes.texts (as : Attributes) : List String :=
  (as.mergeSort fun a b => decide (a.1 ≤ b.1)).map attributeText

/-- A list in brackets with the label in front; an empty list is not written. -/
def bracketed (label : Option String) (as : Attributes) : String :=
  let first := match label with
    | some l => [attributeText ("label", l)]
    | none => []
  match first ++ as.texts with
  | [] => ""
  | texts => " [" ++ String.intercalate " " texts ++ "]"

inductive Item
  | setting (attributes : Attributes)
  | node (name : String) (label : Option String) (attributes : Attributes)
  | edge (tail head : String) (label : Option String) (attributes : Attributes)

def Item.line : Item → String
  | setting as => "\t" ++ String.intercalate " " as.texts ++ "\n"
  | node name label as => "\t" ++ quote name ++ bracketed label as ++ "\n"
  | edge tail head label as =>
    "\t" ++ quoteEnd tail ++ " -> " ++ quoteEnd head ++ bracketed label as ++ "\n"

/-- A part of a graph that is drawn in a box of its own. -/
structure Cluster where
  name : String
  comment : Option String
  items : List Item

structure Digraph where
  name : String
  comment : Option String
  isStrict : Bool
  graphAttributes : Attributes
  nodeAttributes : Attributes
  edgeAttributes : Attributes
  items : List Item
  clusters : List Cluster

def commentLines : Option String → List String
  | some c => if c = "" then [] else ["// " ++ c ++ "\n"]
  | none => []

def opening (keyword name : String) : String :=
  keyword ++ " " ++ (if name = "" then "" else quote name ++ " ") ++ "\x7b\n"

namespace Cluster

def lines (c : Cluster) : List String :=
  commentLines c.comment ++ [opening "subgraph" c.name] ++ c.items.map Item.line ++ ["\x7d\n"]

def text (c : Cluster) : String := String.join (c.lines.map ("\t" ++ ·))

end Cluster

namespace Digraph

def defaultsLine (keyword : String) (as : Attributes) : List String :=
  if as.isEmpty then [] else ["\t" ++ keyword ++ bracketed none as ++ "\n"]

def head (g : Digraph) : String :=
  String.join (commentLines g.comment ++
    [opening (if g.isStrict then "strict digraph" else "digraph") g.name] ++
    defaultsLine "graph" g.graphAttributes ++ defaultsLine "node" g.nodeAttributes ++
    defaultsLine "edge" g.edgeAttributes ++ g.items.map Item.line)

def source (g : Digraph) : String :=
  g.head ++ String.join (g.clusters.map Cluster.text) ++ "\x7d\n"

end Digraph

structure Drawing where
  name : String
  folder : String
  view : Bool
  format : String
  source : String

end Cairoscope.Dot
