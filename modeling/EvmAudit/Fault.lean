/-! Causes for which a computation of this library stops, and the wording of those that have one. -/

namespace EvmAudit

inductive Fault where
  /-- The stack holds fewer items than the instruction takes. -/
  | stackUnderflow
  /-- A position outside a sequence was read. -/
  | missingItem
  /-- A key without an entry was read. -/
  | missingKey
  /-- An operation was applied to values that it is not defined on. -/
  | unsupportedOperand
  /-- A term or formula would mix sorts. -/
  | illSorted
  /-- A part of a value that was never set was read. -/
  | missingPart
  /-- A setting that was never made was read. -/
  | unboundName
  /-- A result was used on a path that does not produce it. -/
  | unsetResult
  /-- A text is no numeral. -/
  | badNumeral
  /-- A number has no inverse for the modulus. -/
  | noInverse
  /-- A number is too large for its representation. -/
  | outOfRange
  | outOfMemory
  | divisionByZero
  | unknownInstruction (name : String)
  | badOpcode (name : String)
  | targetNotInteger
  | sourceMapMismatch
  | assertionsNeedSourceMap
  | unknownJumpKind
  | unknownInputKind
  | missingInput (name : String)
  | undecided (reason : String)
  | deadline
  /-- The whole program ends, with its exit code. -/
  | exit (code : Option Int)
  | noSuchFile
  | badDocument
  | unreachable
  /-- A quoted text, a bracket or a joined line goes on at the end. -/
  | unfinishedText
  /-- A line ends an indentation that was not begun. -/
  | badIndent
  | badPattern
  /-- A quote or an escape at the end of a command line. -/
  | openQuote
  /-- A text has not as many parts as it should have. -/
  | wrongParts
  /-- A file that has to hold something is empty. -/
  | emptyFile
  /-- A given path is a folder. -/
  | isFolder
  deriving DecidableEq, Repr, Inhabited

def Fault.message? : Fault → Option String
  | .stackUnderflow => some "STACK underflow"
  | .unknownInstruction name => some ("UNKNOWN INSTRUCTION: " ++ name)
  | .badOpcode name => some ("Bad Opcode" ++ name)
  | .targetNotInteger => some "Target address must be an integer"
  | .sourceMapMismatch => some "Source map error"
  | .assertionsNeedSourceMap => some "Assertion checks need a Source Map"
  | .unknownJumpKind => some "Unknown Jump-Type"
  | .unknownInputKind => some "There is no such type of input"
  | .missingInput name => some ("'" ++ name ++ "' attribute can't be None")
  | .undecided reason => some reason
  | .deadline => some "Timer expired"
  | _ => none

end EvmAudit
