/-! Why a run can fail. A fault names the cause; `message` is the text that goes with it, if the
cause has one. -/

namespace Cairoscope

inductive Fault
  /-- The file is not a JSON document. -/
  | notJson
  /-- The document is null or the empty text. -/
  | emptyDocument
  /-- No function has the requested name or offset. -/
  | noSuchFunction
  /-- The document is none of the known kinds of artifact. -/
  | unknownArtifact
  /-- A field that has to be there is missing. -/
  | missingField (name : String)
  /-- A group of flag bits of an instruction word has no meaning. -/
  | badFlags (bits : List Bool)
  /-- An instruction reads an immediate and there is none. -/
  | immediateMissing
  /-- A conditional jump constrains its result. -/
  | jumpResult
  /-- A call moves `ap` on its own. -/
  | callApUpdate
  /-- An equality has no operator for its kind of result. -/
  | noOperator (result : String)
  /-- A value of one kind stands where another is needed. -/
  | wrongKind
  /-- A value has no such operation. -/
  | noSuchOperation
  /-- A position is outside its list. -/
  | outOfRange
  /-- A text or value is not the number that was expected. -/
  | badNumber
  /-- A number is too large for any integer. -/
  | infinite
  /-- A remainder modulo zero. -/
  | zeroModulus
  /-- A result is used that no earlier step has set. -/
  | unset
  /-- A text is not in the grammar. -/
  | grammar
  /-- A drawing is asked for in no format. -/
  | noFormat
  /-- The search goes on for ever. -/
  | endless
  deriving DecidableEq, Repr

namespace Fault

def bitsText (bits : List Bool) : String :=
  "(" ++ String.intercalate ", " (bits.map fun b => if b then "1" else "0") ++ ")"

def message : Fault → Option String
  | notJson => some "Error: Provided file is not a valid JSON."
  | emptyDocument => some "Error: The provided JSON is empty"
  | noSuchFunction => some "Error: Function does not exist."
  | unknownArtifact => some ""
  | missingField name => some name
  | badFlags bits => some (bitsText bits)
  | immediateMissing => some "op1_addr is Op1Addr.IMM, but no immediate given"
  | jumpResult => some ""
  | callApUpdate => some "CALL must have update_ap is ADD2"
  | noOperator result => some result
  | _ => none

end Fault

/-- A result, or the fault that prevented it. -/
abbrev Outcome (α : Type) := Except Fault α

/-- A run over a state. A fault keeps the state that was reached. -/
abbrev Run (σ α : Type) := EStateM Fault σ α

namespace Run

def ofOutcome {σ α : Type} : Outcome α → Run σ α
  | .ok a => pure a
  | .error e => throw e

def onPart {σ τ α : Type} (part : σ → τ) (put : τ → σ → σ) (r : Run τ α) : Run σ α := fun s =>
  match r (part s) with
  | .ok a t => .ok a (put t s)
  | .error e t => .error e (put t s)

end Run

end Cairoscope
