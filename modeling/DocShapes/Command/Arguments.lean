import DocShapes.Channel

/-! # Arguments

What the arguments of a call ask for. They are read from the left: a call for help wins over a
mistake behind it, and a mistake wins over a call for help behind it. An option that takes many
values takes every word up to the next option; behind `--` there are no options.
-/

namespace DocShapes.Command

/-! ## Requests -/

/-- A call for a catalog of documentation files. -/
structure CatalogRequest where
  inputs : List String
  extensions : List String
  channel : Channel
  eager : Bool
  config : Option String
  out : Option String
  deriving Repr, DecidableEq

inductive Topic where
  | program
  | parse
  | catalog
  | help
  deriving Repr, DecidableEq, Inhabited

inductive Request where
  | help (topic : Topic)
  | version
  | parse (spec : String) (config : Option String)
  | catalog (request : CatalogRequest)
  deriving Repr, DecidableEq

/-! ## Options -/

inductive Switch where
  | verbose
  | help
  | version
  | config
  | input
  | extension
  | channel
  | eager
  | out
  deriving Repr, DecidableEq, Inhabited

/-- How many values an option takes. -/
inductive Arity where
  | nothing
  | one
  | many
  deriving Repr, DecidableEq, Inhabited

namespace Switch

def long : Switch → String
  | .verbose => "verbose"
  | .help => "help"
  | .version => "version"
  | .config => "config"
  | .input => "input"
  | .extension => "extension"
  | .channel => "channel"
  | .eager => "eager"
  | .out => "out"

def short? : Switch → Option Char
  | .verbose => some 'v'
  | .help => some 'h'
  | .version => some 'V'
  | .input => some 'i'
  | .out => some 'o'
  | _ => none

def arity : Switch → Arity
  | .input => .many
  | .extension => .many
  | .config => .one
  | .channel => .one
  | .out => .one
  | _ => .nothing

/-- The option can have the value; the path of a file is not empty. -/
def allows : Switch → String → Bool
  | .config, value => !value.isEmpty
  | .out, value => !value.isEmpty
  | .channel, value => (Channel.ofWord value).isOk
  | _, _ => true

/-- The option can have the values. -/
def allowsAll (switch : Switch) (values : List String) : Bool :=
  values.all switch.allows &&
    match switch.arity with
    | .nothing => values.isEmpty
    | .one => values.length = 1
    | .many => !values.isEmpty

end Switch

/-- The options that a topic knows. -/
def Topic.switches : Topic → List Switch
  | .program => [.verbose, .help, .version]
  | .parse => [.config, .verbose, .help]
  | .catalog => [.input, .extension, .channel, .eager, .config, .out, .verbose, .help]
  | .help => []

/-- The number of words that belong to no option. -/
def Topic.wordCount : Topic → Nat
  | .parse => 1
  | _ => 0

/-! ## Items -/

/-- What an argument says on its own. -/
inductive Token where
  | word (text : String)
  | switch (switch : Switch)
  | attached (switch : Switch) (value : String)
  | unknown
  deriving Repr, DecidableEq, Inhabited

/-- The tokens of short options in one argument; the first one that takes a value takes what is
behind it, if anything is. -/
def clusterTokens (switches : List Switch) : List Char → List Token
  | [] => []
  | c :: rest =>
      match switches.find? fun switch => switch.short? = some c with
      | none => [.unknown]
      | some switch =>
          if switch.arity = .nothing then .switch switch :: clusterTokens switches rest
          else
            match rest with
            | [] => [.switch switch]
            | '=' :: value => [.attached switch (String.ofList value)]
            | value => [.attached switch (String.ofList value)]

/-- The token of a long option, with the value behind an equals sign if there is one. -/
def longToken (switches : List Switch) (text : List Char) : Token :=
  let name := String.ofList (text.takeWhile (· ≠ '='))
  match switches.find? fun switch => switch.long = name with
  | none => .unknown
  | some switch =>
      match text.dropWhile (· ≠ '=') with
      | [] => .switch switch
      | _ :: value =>
          if switch.arity = .nothing then .unknown else .attached switch (String.ofList value)

def tokens (switches : List Switch) (argument : String) : List Token :=
  match argument.toList with
  | '-' :: '-' :: text => [longToken switches text]
  | '-' :: c :: rest => clusterTokens switches (c :: rest)
  | _ => [.word argument]

/-- An option with its values, or a word that belongs to no option. -/
inductive Item where
  | given (switch : Switch) (values : List String)
  | word (text : String)
  | unknown
  deriving Repr, DecidableEq, Inhabited

/-- The words in front of the first option, and the items from that option on. -/
def group : List Token → List String × List Item
  | [] => ([], [])
  | token :: rest =>
      let (words, items) := group rest
      match token with
      | .word text => (text :: words, items)
      | .unknown => ([], .unknown :: words.map .word ++ items)
      | .attached switch value => ([], .given switch [value] :: words.map .word ++ items)
      | .switch switch =>
          let taken :=
            match switch.arity with
            | .nothing => 0
            | .one => 1
            | .many => words.length
          ([], .given switch (words.take taken) :: (words.drop taken).map .word ++ items)

/-- The items of arguments; behind the first `--` there are only words. -/
def items (switches : List Switch) (arguments : List String) : List Item :=
  let front := arguments.takeWhile (· ≠ "--")
  let back := (arguments.dropWhile (· ≠ "--")).drop 1
  let (words, given) := group (front.flatMap (tokens switches))
  words.map .word ++ given ++ back.map .word

/-! ## Reading -/

/-- What ends the reading of arguments early. -/
inductive Stop where
  | misuse
  | answer (request : Request)
  deriving Repr, DecidableEq

/-- The options and words so far. -/
structure Draft where
  given : List (Switch × List String)
  words : List String
  deriving Repr, DecidableEq

namespace Draft

def empty : Draft := ⟨[], []⟩

def has (draft : Draft) (switch : Switch) : Bool :=
  draft.given.any fun entry => entry.1 = switch

def values (draft : Draft) (switch : Switch) : List String :=
  draft.given.flatMap fun entry => if entry.1 = switch then entry.2 else []

/-- An option comes once unless it takes many values. -/
def add (topic : Topic) (draft : Draft) : Item → Except Stop Draft
  | .unknown => .error .misuse
  | .word text =>
      if draft.words.length < topic.wordCount then
        .ok { draft with words := draft.words ++ [text] }
      else .error .misuse
  | .given .help _ => .error (.answer (.help topic))
  | .given .version _ => .error (.answer .version)
  | .given switch values =>
      if switch.arity ≠ .many && draft.has switch then .error .misuse
      else if switch.allowsAll values then
        .ok { draft with given := draft.given ++ [(switch, values)] }
      else .error .misuse

def ofArguments (topic : Topic) (arguments : List String) : Except Stop Draft :=
  (items topic.switches arguments).foldlM (add topic) empty

end Draft

def parseRequest (draft : Draft) : Except Stop Request :=
  match draft.words with
  | [spec] => .ok (.parse spec (draft.values .config).head?)
  | _ => .error .misuse

def catalogRequest (draft : Draft) : Except Stop Request :=
  if draft.has .input then
    let channel := (draft.values .channel).head?.bind fun word => (Channel.ofWord word).toOption
    .ok (.catalog {
      inputs := draft.values .input
      extensions := draft.values .extension
      channel := channel.getD .unscoped
      eager := draft.has .eager
      config := (draft.values .config).head?
      out := (draft.values .out).head? })
  else .error .misuse

def helpRequest : List String → Except Stop Request
  | [] => .ok (.help .program)
  | ["parse"] => .ok (.help .parse)
  | ["catalog"] => .ok (.help .catalog)
  | ["help"] => .ok (.help .help)
  | _ => .error .misuse

/-- The argument is an option of the program itself. -/
def isSwitch (argument : String) : Bool :=
  argument.toList.head? = some '-' && argument ≠ "-" && argument ≠ "--"

def readUntilStop (arguments : List String) : Except Stop Request := do
  let _ ← Draft.ofArguments .program (arguments.takeWhile isSwitch)
  match arguments.dropWhile isSwitch with
  | "parse" :: rest => parseRequest (← Draft.ofArguments .parse rest)
  | "catalog" :: rest => catalogRequest (← Draft.ofArguments .catalog rest)
  | "help" :: rest => helpRequest rest
  | _ => .error .misuse

/-- The request that arguments make, if they make one. -/
def Request.ofArguments (arguments : List String) : Option Request :=
  match readUntilStop arguments with
  | .ok request => some request
  | .error (.answer request) => some request
  | .error .misuse => none

end DocShapes.Command
