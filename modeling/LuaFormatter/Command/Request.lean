import LuaFormatter.Style

/-!
# Requests on the command line

What the arguments of the program ask for. Options may stand anywhere after the command; the value
of an option follows it, as the next argument or after an equals sign. After two dashes every
argument is a file, and a single dash is the file that stands for standard input. Arguments that ask
for nothing, or for two things at once, are refused: `Request.ofArguments?` is `none`.
-/

namespace LuaFormatter

/-- What is done with a formatted file. -/
structure FormatMode where
  /-- Print the formatted text. -/
  dryRun : Bool
  /-- Only tell whether the file is formatted. -/
  check : Bool

/-- What the program is asked to do. -/
inductive Request where
  | version
  | format (file : String) (mode : FormatMode) (style : Style)
  | printTokens (file : String)
  | printTree (file : String)
  | printDoc (file : String) (style : Style)

/-- The file that a request names. -/
def Request.file? : Request → Option String
  | version => none
  | format file _ _ | printTokens file | printTree file | printDoc file _ => some file

/-- Options without a value. -/
inductive Switch where
  | dryRun | check | useSpaces | singleQuote | noBracketSpacing
deriving DecidableEq

/-- Options with a value. -/
inductive Setting where
  | printWidth | indentWidth | trailingComma | lineEnding
deriving DecidableEq

namespace Switch

/-- How an option is written. -/
def text : Switch → String
  | dryRun => "--dryrun"
  | check => "--check"
  | useSpaces => "--config-use-spaces"
  | singleQuote => "--config-single-quote"
  | noBracketSpacing => "--config-no-bracket-spacing"

/-- The options without a value that are about the style. -/
def ofStyle : List Switch :=
  [useSpaces, singleQuote, noBracketSpacing]

end Switch

namespace Setting

/-- How an option is written. -/
def text : Setting → String
  | printWidth => "--config-print-width"
  | indentWidth => "--config-indent-width"
  | trailingComma => "--config-trailing-comma"
  | lineEnding => "--config-line-ending"

/-- The options with a value, all about the style. -/
def all : List Setting :=
  [printWidth, indentWidth, trailingComma, lineEnding]

end Setting

/-- The options that a command knows. -/
structure Options where
  switches : List Switch
  settings : List Setting

/-- An argument of a command. -/
inductive Item where
  | file (name : String)
  | switch (switch : Switch)
  | setting (setting : Setting) (value : String)

namespace Item

/-- The argument names an option. A single dash is a file. -/
def isOption (argument : String) : Bool :=
  argument.toList.head? = some '-' && argument ≠ "-"

/-- An option with the value that follows an equals sign, if there is one. -/
def splitValue (argument : String) : String × Option String :=
  let name := argument.toList.takeWhile (· ≠ '=')
  let rest := argument.toList.dropWhile (· ≠ '=')
  (String.ofList name, if rest.isEmpty then none else some (String.ofList rest.tail))

/-- The arguments of a command that knows some options, `none` if one of them is not understood. -/
def ofArguments? (options : Options) : List String → Option (List Item)
  | [] => some []
  | argument :: rest =>
    if argument = "--" then some (rest.map file)
    else if isOption argument then
      let (name, value) := splitValue argument
      match options.switches.find? (·.text = name),
      options.settings.find? (·.text = name), value with
      | some known, _, none => (ofArguments? options rest).map (switch known :: ·)
      | _, some known, some value => (ofArguments? options rest).map (setting known value :: ·)
      | _, some known, none =>
        match rest with
        | value :: rest =>
          if isOption value then none
          else (ofArguments? options rest).map (setting known value :: ·)
        | [] => none
      | _, _, _ => none
    else
      (ofArguments? options rest).map (file argument :: ·)

/-- The files among the arguments. -/
def files (items : List Item) : List String :=
  items.filterMap fun
    | file name => some name
    | _ => none

/-- The options without a value among the arguments. -/
def switches (items : List Item) : List Switch :=
  items.filterMap fun
    | switch known => some known
    | _ => none

/-- The options with a value among the arguments. -/
def settings (items : List Item) : List (Setting × String) :=
  items.filterMap fun
    | setting known value => some (known, value)
    | _ => none

end Item

namespace Style

/-- A width: a number up to 65535 in decimal digits. A sign may stand before it, the minus sign only
before zero. -/
def width? (text : String) : Option Nat :=
  let (isNegative, digits) :=
    match text.toList with
    | '+' :: digits => (false, digits)
    | '-' :: digits => (true, digits)
    | digits => (false, digits)
  if digits.isEmpty || !digits.all Char.isDigit then none
  else
    let value := digits.foldl (fun value digit => 10 * value + (digit.toNat - '0'.toNat)) 0
    if 65535 < value || (isNegative && value ≠ 0) then none else some value

/-- A style with one setting changed, `none` if the value is not allowed. -/
def set? (style : Style) (setting : Setting) (value : String) : Option Style :=
  match setting with
  | .printWidth => (width? value).map fun width => { style with printWidth := width }
  | .indentWidth => (width? value).map fun width => { style with indentWidth := width }
  | .trailingComma =>
    match value with
    | "all" => some { style with trailingComma := .always }
    | "where-valid" => some { style with trailingComma := .whereValid }
    | "none" => some { style with trailingComma := .never }
    | _ => none
  | .lineEnding =>
    match value with
    | "native" => some { style with lineEnding := .native }
    | "lf" => some { style with lineEnding := .lineFeed }
    | "crlf" => some { style with lineEnding := .carriageReturnLineFeed }
    | _ => none

/-- The style that options ask for. -/
def ofOptions? (switches : List Switch) (settings : List (Setting × String)) : Option Style :=
  let base : Style :=
    { useTabs := !switches.contains .useSpaces
      quotes := if switches.contains .singleQuote then .single else .double
      bracketSpacing := !switches.contains .noBracketSpacing }
  settings.foldlM (fun style (setting, value) => style.set? setting value) base

end Style

/-- What a command is asked: one file, options that are given at most once each, and a style. -/
def arguments? (options : Options) (arguments : List String) :
    Option (String × List Switch × Style) := do
  let items ← Item.ofArguments? options arguments
  let switches := Item.switches items
  let settings := Item.settings items
  guard (switches.eraseDups.length = switches.length)
  let known := settings.map Prod.fst
  guard (known.eraseDups.length = known.length)
  let style ← Style.ofOptions? switches settings
  match Item.files items with
  | [file] => some (file, switches, style)
  | _ => none

/-- What the arguments of the program ask for, `none` if they are refused. -/
def Request.ofArguments? : List String → Option Request
  | "--version" :: _ | "-V" :: _ => some .version
  | "format" :: arguments | "fmt" :: arguments => do
    let options := ⟨[.dryRun, .check] ++ Switch.ofStyle, Setting.all⟩
    let (file, switches, style) ← LuaFormatter.arguments? options arguments
    return .format file ⟨switches.contains .dryRun, switches.contains .check⟩ style
  | "print" :: "tokens" :: arguments => do
    let (file, _, _) ← LuaFormatter.arguments? ⟨[], []⟩ arguments
    return .printTokens file
  | "print" :: "ast" :: arguments => do
    let (file, _, _) ← LuaFormatter.arguments? ⟨[], []⟩ arguments
    return .printTree file
  | "print" :: "ir" :: arguments => do
    let (file, _, style) ← LuaFormatter.arguments? ⟨Switch.ofStyle, Setting.all⟩ arguments
    return .printDoc file style
  | _ => none

end LuaFormatter
