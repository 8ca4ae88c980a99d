import MessageHarvest.Command

/-!
# The command line

The arguments of the program are read from left to right. An option may have its value attached
(`--format=json`, `-fjson`, `-f=json`) or in the next argument. A value is looked at only when the
next option or path has been understood, or at the end: an argument that is not understood at all
comes before a wrong value that stands to the left of it.

* `CommandLine.parse` gives the command, or nothing if there is none.
-/

namespace MessageHarvest.CommandLine

/-- Why arguments are not a command, or what is asked for instead of one. -/
inductive Refusal where
  | helpWanted
  | versionWanted
  | unknownCommand
  | unknownArgument
  | invalidValue
  | unwantedValue
  | repeatedOption
deriving DecidableEq, Repr

/-! ## The form of arguments -/

/-- What an argument looks like. -/
inductive Shape where
  | terminator
  | long (name : RawText) (value : Option RawText)
  | short (letters : RawText)
  | operand
deriving DecidableEq, Repr

def dash : Glyph := .char '-'

/-- Splits the text of a long option at its first equals sign. -/
def splitValue : RawText → RawText × Option RawText
  | [] => ([], none)
  | g :: gs =>
    if g = .char '=' then ([], some gs)
    else
      let (name, value) := splitValue gs
      (g :: name, value)

/-- A single dash is an operand. -/
def shapeOf : RawText → Shape
  | [] => .operand
  | g :: gs =>
    if g ≠ dash then .operand
    else match gs with
      | [] => .operand
      | h :: hs =>
        if h ≠ dash then .short (h :: hs)
        else if hs = [] then .terminator
        else .long (splitValue hs).1 (splitValue hs).2

/-! ## Options with values -/

/-- What a value may be given for. -/
inductive Slot where
  | sourceRoot
  | format
  | policy
  | path
deriving DecidableEq, Repr

/-- The options read so far. `waiting` holds the values that have not been looked at yet, and what
they are for; `isOpen` says that the next argument is a value of it. -/
structure Draft where
  sourceRoot : Option Path := none
  verbose : Bool := false
  paths : List Path := []
  format : Option ReportFormat := none
  policy : Option FaultPolicy := none
  waiting : Option (Slot × List RawText) := none
  isOpen : Bool := false
deriving DecidableEq, Repr

namespace Draft

/-- A path is any value but the empty one. -/
def pathOf (value : RawText) : Except Refusal Path :=
  if value = [] then .error .invalidValue else .ok value

/-- One of a few names. -/
def nameOf {α : Type} (ofName? : String → Option α) (value : RawText) : Except Refusal α :=
  match value.text?.bind ofName? with
  | some a => .ok a
  | none => .error .invalidValue

/-- Keeps one value. An option is given at most once. -/
def keepOne (draft : Draft) (slot : Slot) (value : RawText) : Except Refusal Draft := do
  match slot with
  | .sourceRoot =>
    if draft.sourceRoot.isSome then throw .repeatedOption
    return { draft with sourceRoot := some (← pathOf value) }
  | .format =>
    if draft.format.isSome then throw .repeatedOption
    return { draft with format := some (← nameOf ReportFormat.ofName? value) }
  | .policy =>
    if draft.policy.isSome then throw .repeatedOption
    return { draft with policy := some (← nameOf FaultPolicy.ofName? value) }
  | .path => return { draft with paths := draft.paths ++ [← pathOf value] }

/-- Keeps the values that are given at one place. There has to be one. -/
def keep (draft : Draft) (slot : Slot) (values : List RawText) : Except Refusal Draft :=
  if values = [] then .error .invalidValue
  else values.foldlM (fun draft value => draft.keepOne slot value) draft

/-- Looks at the values that are waiting. -/
def settle (draft : Draft) : Except Refusal Draft :=
  let settled := { draft with waiting := none, isOpen := false }
  match draft.waiting with
  | none => .ok settled
  | some (slot, values) => settled.keep slot values

def askHelp (draft : Draft) : Except Refusal Draft := do
  let _ ← draft.settle
  throw .helpWanted

def setVerbose (draft : Draft) : Except Refusal Draft := do
  let draft ← draft.settle
  if draft.verbose then throw .repeatedOption
  return { draft with verbose := true }

/-- Takes an option with its attached value, or waits for one. -/
def option (draft : Draft) (slot : Slot) (value : Option RawText) : Except Refusal Draft := do
  let draft ← draft.settle
  match value with
  | some value => draft.keep slot [value]
  | none => return { draft with waiting := some (slot, []), isOpen := true }

/-- Takes an operand: the value of an open option, or a path. -/
def operand (draft : Draft) (value : RawText) : Except Refusal Draft := do
  match draft.waiting, draft.isOpen with
  | some (slot, _), true => return { draft with waiting := some (slot, [value]), isOpen := false }
  | some (.path, values), _ => return { draft with waiting := some (.path, values ++ [value]) }
  | _, _ =>
    let draft ← draft.settle
    return { draft with waiting := some (.path, [value]) }

/-- Takes a path that comes after the terminator. -/
def pathOnly (draft : Draft) (value : RawText) : Except Refusal Draft :=
  { draft with isOpen := false }.operand value

/-- Takes a long option. -/
def long (draft : Draft) (name : RawText) (value : Option RawText) : Except Refusal Draft := do
  match name.text?, value with
  | some "source-root", value => draft.option .sourceRoot value
  | some "format", value => draft.option .format value
  | some "on-error", value => draft.option .policy value
  | some "verbose", none => draft.setVerbose
  | some "help", none => draft.askHelp
  | some "verbose", some _ => throw .unwantedValue
  | some "help", some _ => throw .unwantedValue
  | _, _ => throw .unknownArgument

/-- The value attached to a short option. An equals sign before it is no part of it. -/
def attached : RawText → Option RawText
  | [] => none
  | g :: gs => some (if g = .char '=' then gs else g :: gs)

/-- Takes the short options of one argument. -/
def short (draft : Draft) : RawText → Except Refusal Draft
  | [] => .ok draft
  | .char 'v' :: rest => do (← draft.setVerbose).short rest
  | .char 'h' :: _ => draft.askHelp
  | .char 'f' :: rest => draft.option .format (attached rest)
  | _ :: _ => .error .unknownArgument

/-- The options, once all arguments have been taken. -/
def options (draft : Draft) : ExtractOptions where
  sourceRoot := draft.sourceRoot
  verbose := draft.verbose
  paths := draft.paths
  format := draft.format.getD .human
  policy := draft.policy

end Draft

/-! ## Commands -/

/-- Reads the arguments of an extraction. -/
def parseExtract (draft : Draft) : List RawText → Except Refusal ExtractOptions
  | [] => Draft.options <$> draft.settle
  | argument :: rest =>
    match shapeOf argument with
    | .terminator => do return (← (← rest.foldlM Draft.pathOnly draft).settle).options
    | .long name value => do parseExtract (← draft.long name value) rest
    | .short letters => do parseExtract (← draft.short letters) rest
    | .operand => do parseExtract (← draft.operand argument) rest

/-- What a long option asks for where there are no others than these. -/
def flagOnly (flags : List (String × Refusal)) (name : RawText) (value : Option RawText) :
    Refusal :=
  match name.text?.bind (flags.lookup ·), value with
  | some refusal, none => refusal
  | some _, some _ => .unwantedValue
  | none, _ => .unknownArgument

/-- Reads the arguments of a command that takes none. -/
def parseInit : List RawText → Except Refusal Unit
  | [] => .ok ()
  | argument :: rest =>
    match shapeOf argument with
    | .terminator => if rest = [] then .ok () else .error .unknownArgument
    | .long name value => .error (flagOnly [("help", .helpWanted)] name value)
    | .short (.char 'h' :: _) => .error .helpWanted
    | .short _ => .error .unknownArgument
    | .operand => .error .unknownArgument

def commandNames : List RawText :=
  ["extract", "init", "help"].map RawText.ofString

/-- Reads the arguments after `help`: at most one command. -/
def parseHelp : List RawText → Refusal
  | [] => .helpWanted
  | [name] => if commandNames.contains name then .helpWanted else .unknownCommand
  | _ => .unknownCommand

/-- Reads the first argument where it is no command. -/
def parseOther (argument : RawText) (rest : List RawText) : Except Refusal (Option Command) :=
  match shapeOf argument with
  | .terminator =>
    match rest with
    | [] => .ok none
    | name :: _ => .error (if commandNames.contains name then .unknownArgument else .unknownCommand)
  | .long name value =>
    .error (flagOnly [("help", .helpWanted), ("version", .versionWanted)] name value)
  | .short (.char 'h' :: _) => .error .helpWanted
  | .short (.char 'V' :: _) => .error .versionWanted
  | .short _ => .error .unknownArgument
  | .operand => .error .unknownCommand

/-- Reads the arguments of the program, without its own name. -/
def parse : List RawText → Except Refusal (Option Command)
  | [] => .ok none
  | argument :: rest =>
    match argument.text? with
    | some "extract" => (fun options => some (.extract options)) <$> parseExtract {} rest
    | some "init" => (fun _ => some .init) <$> parseInit rest
    | some "help" => .error (parseHelp rest)
    | _ => parseOther argument rest

end MessageHarvest.CommandLine
