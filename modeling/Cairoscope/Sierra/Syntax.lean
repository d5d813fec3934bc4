import Cairoscope.Text.Numeral

/-! The syntax of Sierra: declarations of types and library functions, statements, and functions. Each
part has its text, written without blanks but for the one after a comma. -/

namespace Cairoscope.Sierra

inductive Brackets
  /-- `a<b>` -/
  | angle
  /-- `a::<b>` -/
  | path
  /-- `a::<(b)>` -/
  | tuple
  deriving DecidableEq, Repr

mutual

inductive Ident
  | number (n : Int)
  | label (path : List String)
  | applied (path : List String) (brackets : Brackets) (arguments : List Argument)

inductive Argument
  | type (id : Ident)
  | integer (n : Int)
  | function (id : Ident)
  | userType (id : Ident)
  | libfunc (id : Ident)
  | unit

end

/-- What a type or a library function is an instance of. -/
inductive Generic
  | number (n : Int)
  | label (path : List String)

structure LongId where
  generic : Generic
  arguments : Option (List Argument)

structure Declaration where
  id : Ident
  long : LongId

inductive VarId
  | number (n : Int)
  | label (name : String)
  deriving DecidableEq, Repr

inductive Target
  | next
  | statement (index : Int)
  deriving DecidableEq, Repr

structure Branch where
  target : Target
  results : List VarId

inductive Command
  | give (vars : List VarId)
  | invoke (libfunc : Ident) (arguments results : List VarId)
  | jump (libfunc : Ident) (arguments : List VarId) (branches : List Branch)

structure Param where
  var : VarId
  type : Ident

structure FunctionDeclaration where
  id : Ident
  start : Int
  params : List Param
  returns : List Ident

structure Source where
  types : List Declaration
  libfuncs : List Declaration
  commands : List Command
  functions : List FunctionDeclaration

def joinWith (items : List String) : String := String.intercalate ", " items

def bracketed (n : Int) : String := "[" ++ Text.decimal n ++ "]"

def pathText (path : List String) : String := String.intercalate "::" path

def Brackets.opening : Brackets → String
  | angle => "<"
  | path => "::<"
  | tuple => "::<("

def Brackets.closing : Brackets → String
  | tuple => ")>"
  | _ => ">"

mutual

def Ident.text : Ident → String
  | .number n => bracketed n
  | .label path => pathText path
  | .applied path b arguments => pathText path ++ b.opening ++ joinWith (argumentTexts arguments) ++ b.closing

def Argument.text : Argument → String
  | .type id => id.text
  | .integer n => Text.decimal n
  | .function id => "user@" ++ id.text
  | .userType id => "ut@" ++ id.text
  | .libfunc id => "lib@" ++ id.text
  | .unit => "()"

def argumentTexts : List Argument → List String
  | [] => []
  | a :: rest => a.text :: argumentTexts rest

end

def Generic.text : Generic → String
  | number n => bracketed n
  | label path => pathText path

def LongId.text (l : LongId) : String :=
  l.generic.text ++ match l.arguments with
    | some arguments => "<" ++ joinWith (argumentTexts arguments) ++ ">"
    | none => ""

def VarId.text : VarId → String
  | number n => bracketed n
  | label name => name

def VarId.number? : VarId → Option Int
  | number n => some n
  | label _ => none

def Target.text : Target → String
  | next => "fallthrough"
  | statement index => Text.decimal index

def Target.index? : Target → Option Int
  | next => none
  | statement index => some index

def varsText (vars : List VarId) : String := "(" ++ joinWith (vars.map VarId.text) ++ ")"

def Branch.text (b : Branch) : String := b.target.text ++ varsText b.results

def Command.text : Command → String
  | give vars => "return" ++ varsText vars ++ ";"
  | invoke libfunc arguments results =>
    libfunc.text ++ varsText arguments ++ "->" ++ varsText results ++ ";"
  | jump libfunc arguments branches =>
    libfunc.text ++ varsText arguments ++ "\x7b" ++ String.join (branches.map Branch.text) ++ "\x7d;"

end Cairoscope.Sierra
