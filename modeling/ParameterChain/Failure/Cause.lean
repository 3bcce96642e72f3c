/-
# Causes of failure

Everything that can go wrong while files are loaded, values are resolved and
parameters are read, one constructor per rule that was broken, and one for what a
source of files reports in words of its own.  A cause carries what the rule was
applied to; `Cause.kind` sorts the causes into the seventeen kinds that callers
tell apart, and `Cause.message` is the only place where the wording stands.

Where a failure arose (file, line, parameter, value) is not part of its cause:
see `Context` in `ParameterChain.Failure`.
-/
import ParameterChain.Operator
import ParameterChain.Failure.Forms

namespace ParameterChain

/-- The kinds of failure. -/
inductive FailureKind where
  | invalidName
  | invalidValue
  | duplicateDeclaration
  | ambiguousChain
  | differentArms
  | unknownReference
  | typeMismatch
  | unitCategoryMismatch
  | missingUnit
  | unrecognizedUnit
  | lengthMismatch
  | trailingTokens
  | reservedAttribute
  | notChangeable
  | undefined
  | limitExceeded
  | unreadable
  deriving DecidableEq, Repr

namespace FailureKind

def all : List FailureKind :=
  [.invalidName, .invalidValue, .duplicateDeclaration, .ambiguousChain, .differentArms,
    .unknownReference, .typeMismatch, .unitCategoryMismatch, .missingUnit, .unrecognizedUnit,
    .lengthMismatch, .trailingTokens, .reservedAttribute, .notChangeable, .undefined,
    .limitExceeded, .unreadable]

theorem mem_all (k : FailureKind) : k ∈ all := by
  cases k <;> decide

/-- The kind as it is shown in front of a message. -/
def title : FailureKind → String
  | .invalidName => "InvalidName"
  | .invalidValue => "InvalidValue"
  | .duplicateDeclaration => "DuplicateDeclaration"
  | .ambiguousChain => "AmbiguousParameterChain"
  | .differentArms => "ControlByDifferentArms"
  | .unknownReference => "UnknownReference"
  | .typeMismatch => "TypeMismatch"
  | .unitCategoryMismatch => "UnitCategoryMismatch"
  | .missingUnit => "MissingUnit"
  | .unrecognizedUnit => "UnrecognizedUnit"
  | .lengthMismatch => "VectorLengthMismatch"
  | .trailingTokens => "TrailingTokens"
  | .reservedAttribute => "NonChangeableAttribute"
  | .notChangeable => "NotChangeable"
  | .undefined => "Undefined"
  | .limitExceeded => "SecurityError"
  | .unreadable => "IOError"

/-- The kind with a given title. -/
def ofTitle? (t : String) : Option FailureKind :=
  all.find? (·.title == t)

theorem ofTitle?_title (k : FailureKind) : ofTitle? k.title = some k := by
  cases k <;> decide

/-- A title tells its kind. -/
theorem ofTitle?_eq_some {t : String} {k : FailureKind} : ofTitle? t = some k ↔ k.title = t := by
  constructor
  · intro h
    have htitle := List.find?_some h
    exact eq_of_beq htitle
  · rintro rfl
    exact ofTitle?_title k

end FailureKind

/-- What went wrong. -/
inductive Cause where
  -- Reading records
  | fileTooLarge (limit : Nat)
  | lineTooLong (limit : Nat)
  | notUtf8
  | missingName
  | forbiddenInName (c : Char)
  | forbiddenInValue (c : Char)
  -- Declarations
  | noNameAfterColon
  | nothingBeforeColon
  | badTypeCode (code : String)
  | leadingSlash
  | reservedAttribute
  | duplicateInFile
  -- Sources of files
  | cannotOpen (spec detail : String)
  | reported (kind : FailureKind) (message : String)
  -- The include graph
  | includeCycle (spec : String)
  | includeTooDeep (limit : Nat)
  | tooManyFiles (limit : Nat)
  | ambiguousChain (includer : String) (chain₁ chain₂ : List String)
  | mustBeAbsolute
  | differentArms (chain₁ : List String) (modifier : String) (chain₂ : List String)
  | kindDiffers (found declared : Kind)
  | changeableDiffers
  | overridesFixed
  | notChangeable (name : String)
  | includeAfterLoad
  | unknownKind
  -- Values
  | unknownReference (name : String)
  | wrongReferenceKind (name : String) (found : Kind) (expected : List Kind)
  | notANumber (token : String)
  | notAnInteger (token : String)
  | notABoolean (token : String)
  | unterminatedText
  | emptyValue
  | missingOperand
  | missingUnit
  | numberForUnit (token : String)
  | unrecognizedUnit (unit : String)
  | unitDiffersFromParent (unit category parentCategory : String)
  | unitDisagreement (other category otherCategory : String)
  | countNotInteger (token : String)
  | countNegative
  | countZero
  | vectorTooLong (count limit : Nat)
  | tooFewValues (count found : Nat)
  | trailingTokens (isVector : Bool)
  -- Evaluation
  | undefined (name : String)
  | lengthMismatch (other : String) (expected found : Nat)
  | evaluationTooDeep (limit : Nat)
  | wrongKind (name : String) (expected found : Kind)
  | wrongCategory (name expected found : String)
  | wrongLength (name : String) (expected found : Nat)
  | incompatibleOperands (op : Operator)
  -- Time features
  | functionNotText
  | functionUnitIsNumber (token : String)
  | unknownFunction (name : String)
  | functionNeedsStep
  | functionMustBeUnitless (function : String)
  | stepLengths (times values : Nat)
  | stepValuesNotVector
  deriving DecidableEq, Repr

namespace Cause

/-- The kind of failure that a cause leads to. -/
def kind : Cause → FailureKind
  | fileTooLarge _ | lineTooLong _ | includeCycle _ | includeTooDeep _ | tooManyFiles _
  | vectorTooLong _ _ | evaluationTooDeep _ => .limitExceeded
  | missingName | forbiddenInName _ | noNameAfterColon | nothingBeforeColon | badTypeCode _
  | leadingSlash | includeAfterLoad => .invalidName
  | notUtf8 | forbiddenInValue _ | notANumber _ | notAnInteger _ | notABoolean _
  | unterminatedText | emptyValue | missingOperand | countNotInteger _ | countNegative
  | countZero | tooFewValues _ _ | functionNotText | functionUnitIsNumber _
  | unknownFunction _ | functionNeedsStep | functionMustBeUnitless _ => .invalidValue
  | reservedAttribute => .reservedAttribute
  | duplicateInFile => .duplicateDeclaration
  | cannotOpen _ _ => .unreadable
  | reported kind _ => kind
  | ambiguousChain _ _ _ | mustBeAbsolute => .ambiguousChain
  | differentArms _ _ _ => .differentArms
  | kindDiffers _ _ | changeableDiffers | unknownKind | wrongReferenceKind _ _ _
  | wrongKind _ _ _ | incompatibleOperands _ | stepValuesNotVector => .typeMismatch
  | overridesFixed | notChangeable _ => .notChangeable
  | unknownReference _ => .unknownReference
  | missingUnit | numberForUnit _ => .missingUnit
  | unrecognizedUnit _ => .unrecognizedUnit
  | unitDiffersFromParent _ _ _ | unitDisagreement _ _ _ | wrongCategory _ _ _ =>
      .unitCategoryMismatch
  | trailingTokens _ => .trailingTokens
  | undefined _ => .undefined
  | lengthMismatch _ _ _ | wrongLength _ _ _ | stepLengths _ _ => .lengthMismatch

/-- A number in base sixteen with capital digits, at least four of them. -/
def codePoint (n : Nat) : String :=
  let digits := (Nat.toDigits 16 n).map Char.toUpper
  String.ofList (List.replicate (4 - digits.length) '0' ++ digits)

/-- The name of a character that a name or a value may not contain. -/
def describe (c : Char) : String :=
  match c with
  | '=' => "Equals Sign"
  | '+' => "Plus Sign"
  | '-' => "Minus Sign"
  | '*' => "Asterisk"
  | '"' => "Double Quotes"
  | '\x27' => "Single Quote"
  | '\x60' => "Back Tick"
  | '#' => "Hash"
  | ' ' => "Space"
  | '\t' => "Tab"
  | '\n' => "Line Feed"
  | '\r' => "Carriage Return"
  | other => "U+" ++ codePoint other.toNat

/-- The wording of a cause. -/
def message : Cause → String
  | fileTooLarge limit => "file too large: exceeds limit of " ++ Nat.repr limit ++ " bytes"
  | lineTooLong limit => "line too long: exceeds limit of " ++ Nat.repr limit ++ " bytes"
  | notUtf8 => "file is not valid UTF-8"
  | missingName => "missing parameter name before the equals sign"
  | forbiddenInName c => "parameter name contains a forbidden character: " ++ describe c
  | forbiddenInValue c => "parameter value contains a forbidden character: " ++ describe c
  | noNameAfterColon => "no name after the colon"
  | nothingBeforeColon => "missing characters before the colon"
  | badTypeCode code => "incorrect characters before the colon: " ++ code
  | leadingSlash => "parameter name must not start with a slash"
  | reservedAttribute => "This parameter should never be set to changeable."
  | duplicateInFile => "parameter has already been defined elsewhere in this same file"
  | cannotOpen spec detail => "unable to open parameter file " ++ spec ++ ": " ++ detail
  | reported _ message => message
  | includeCycle spec =>
      "parameter file " ++ spec ++ " includes itself through its own include chain"
  | includeTooDeep limit =>
      "include chain too deep: exceeds limit of " ++ Nat.repr limit ++ " files"
  | tooManyFiles limit => "too many parameter files: exceeds limit of " ++ Nat.repr limit
  | ambiguousChain includer chain₁ chain₂ =>
      "Parameter is set in two different parameter chains included from " ++ includer ++
        " and not set absolutely in that top file.\n  Chain 1: " ++ " ".intercalate chain₁ ++
        "\n  Chain 2: " ++ " ".intercalate chain₂
  | mustBeAbsolute =>
      "Parameter is set in two different include file chains. " ++
        "This is only allowed if the top file sets this parameter to an absolute value."
  | differentArms chain₁ modifier chain₂ =>
      "has been defined in chain:\n    " ++ " ".intercalate chain₁ ++
        "\n  but has been modified by parameter " ++ modifier ++ " in chain:\n    " ++
        " ".intercalate chain₂
  | kindDiffers found declared =>
      "parameter has different type in different files: " ++ declared.code ++ " here, " ++
        found.code ++ " in an included file"
  | changeableDiffers => "parameter has different settings for changeable in different files"
  | overridesFixed => "Attempt to override a non-changeable parameter"
  | notChangeable name =>
      "Parameter " ++ name ++ " already exists and is not changeable. " ++
        "Declare it with a c suffix on its type to allow changes."
  | includeAfterLoad => "includeFile cannot be changed once the parameter files are loaded"
  | unknownKind =>
      "Parameter has unknown type. " ++
        "A type prefix is required unless an included file already declares this name."
  | unknownReference name => "refers to parameter " ++ name ++ " which has not been defined"
  | wrongReferenceKind name found expected =>
      "refers to parameter " ++ name ++ " of type " ++ found.code ++ " where type " ++
        " or ".intercalate (expected.map Kind.code) ++ " was expected"
  | notANumber token => "expected a number but found " ++ token
  | notAnInteger token => "expected an integer but found " ++ token
  | notABoolean token => "expected \"True\" or \"False\" but found " ++ token
  | unterminatedText => "string value is missing its closing double quote"
  | emptyValue => "parameter has no value"
  | missingOperand => "nothing follows the operator in expression"
  | missingUnit => "dimensioned parameter is missing its unit"
  | numberForUnit token =>
      "found the number " ++ token ++ " where the unit was expected. " ++
        "Check that the correct number of values was provided."
  | unrecognizedUnit unit => "unit " ++ unit ++ " is not a recognized unit"
  | unitDiffersFromParent unit category parentCategory =>
      "Unit category does not match unit of parent file: " ++ unit ++ " is " ++ category ++
        " but the parent is " ++ parentCategory
  | unitDisagreement other category otherCategory =>
      "unit category " ++ category ++ " does not agree with category " ++ otherCategory ++
        " of parameter " ++ other
  | countNotInteger token =>
      "vector parameter has a non-integer " ++ token ++
        " where the number of values is expected"
  | countNegative => "vector parameter has a negative integer for number of values"
  | countZero => "first token in a vector parameter was less than 1"
  | vectorTooLong count limit =>
      "vector length " ++ Nat.repr count ++ " exceeds limit of " ++ Nat.repr limit
  | tooFewValues count found =>
      "vector parameter declares " ++ Nat.repr count ++ " values but only " ++
        Nat.repr found ++ " were provided"
  | trailingTokens isVector =>
      "Parameter has extra tokens that do not begin with the comment character." ++
        (if isVector then
          "\nProblem may be that the vector's stated length does not match " ++
            "the number of values provided."
        else "")
  | undefined name => "Parameter name: " ++ name ++ " has not been defined."
  | lengthMismatch other expected found =>
      "vector of length " ++ Nat.repr expected ++ " combined with parameter " ++ other ++
        " of length " ++ Nat.repr found
  | evaluationTooDeep limit =>
      "reference chain too deep: exceeds limit of " ++ Nat.repr limit ++
        " (is there a reference cycle?)"
  | wrongKind name expected found =>
      "Expected the parameter named " ++ name ++ " to have type " ++ expected.code ++
        "\nBut instead found type " ++ found.code
  | wrongCategory name expected found =>
      "Expected the parameter named " ++ name ++ " to have unit category " ++ expected ++
        "\nBut instead found " ++ found
  | wrongLength name expected found =>
      "Expected the parameter named " ++ name ++ " to have " ++ Nat.repr expected ++
        " values but found " ++ Nat.repr found
  | incompatibleOperands op =>
      "operands of " ++ String.singleton op.symbol ++ " have incompatible types"
  | functionNotText =>
      "time feature function must be a quoted string holding the function name " ++
        "and an optional unit"
  | functionUnitIsNumber token =>
      "time feature function has the number " ++ token ++ " where its unit was expected"
  | unknownFunction name =>
      "unknown time feature function " ++ name ++
        ". Use Linear, Sqrt, Exponent, Sine, Cosine or Step."
  | functionNeedsStep =>
      "Only time feature function that supports Boolean or String values is Step"
  | functionMustBeUnitless function =>
      "time feature function " ++ function ++ " must be unitless"
  | stepLengths times values =>
      "# of Values must be same # of Times: found " ++ Nat.repr times ++ " times and " ++
        Nat.repr values ++ " values"
  | stepValuesNotVector => "time feature Values must be a vector parameter"

/-- The advice that comes with a cause wherever it arises. -/
def hint? : Cause → Option String
  | badTypeCode _ =>
      some ("Type prefix must be one of b, i, u, d, s, bv, iv, uv, dv, sv, " ++
        "optionally followed by c.")
  | _ => none

end Cause

end ParameterChain
