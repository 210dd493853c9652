/-!
The daemon's command line. Words are taken from left to right, and the first one that is out of
place, or that asks for help or the version, decides.

A long option takes its value behind an equals sign or as the next word. Short options can be
written together; the first one that takes a value takes the rest of the word, with or without an
equals sign before it, or else the next word.
-/

namespace VerifiableLog.Daemon

inductive CommandName where
  | start
  | status
  | keygen
  deriving DecidableEq, Repr

inductive OptionName where
  | config
  | dataDirectory
  | listen
  | memory
  | help
  | version
  deriving DecidableEq, Repr

namespace OptionName

def short : OptionName → Char
  | .config => 'c'
  | .dataDirectory => 'd'
  | .listen => 'l'
  | .memory => 'm'
  | .help => 'h'
  | .version => 'V'

def long : OptionName → String
  | .config => "config"
  | .dataDirectory => "data-dir"
  | .listen => "listen"
  | .memory => "memory"
  | .help => "help"
  | .version => "version"

def takesValue : OptionName → Bool
  | .config => true
  | .dataDirectory => true
  | .listen => true
  | .memory => false
  | .help => false
  | .version => false

def takesPath (name : OptionName) : Bool := name = .config || name = .dataDirectory

end OptionName

def optionsOf : Option CommandName → List OptionName
  | none => [.config, .help, .version]
  | some .start => [.dataDirectory, .listen, .memory, .config, .help]
  | some .status => [.config, .help]
  | some .keygen => [.config, .help]

inductive UsageFault where
  | unknownOption (word : String)
  | missingValue (name : OptionName)
  | unexpectedValue (name : OptionName)
  | emptyPath (name : OptionName)
  | repeatedOption (name : OptionName)
  | unexpectedWord (word : String)
  | unknownCommand (word : String)
  | missingCommand
  deriving DecidableEq, Repr

def UsageFault.message : UsageFault → String
  | .unknownOption word => s!"unexpected argument '{word}' found"
  | .missingValue name => s!"a value is required for '--{name.long}' but none was supplied"
  | .unexpectedValue name => s!"'--{name.long}' takes no value"
  | .emptyPath name => s!"a value is required for '--{name.long}' but none was supplied"
  | .repeatedOption name => s!"the argument '--{name.long}' cannot be used multiple times"
  | .unexpectedWord word => s!"unexpected argument '{word}' found"
  | .unknownCommand word => s!"unrecognized subcommand '{word}'"
  | .missingCommand => "a subcommand is required but one was not provided"

inductive HelpTopic where
  | daemon
  | command (name : CommandName)
  | help
  deriving DecidableEq, Repr

def HelpTopic.of : Option CommandName → HelpTopic
  | none => .daemon
  | some name => .command name

inductive Halt where
  | usage (fault : UsageFault)
  | help (topic : HelpTopic)
  | version
  deriving DecidableEq, Repr

/-- The options that have been given, with their values; an option without one has an empty text. -/
abbrev Given := List (OptionName × String)

def Given.value? (given : Given) (name : OptionName) : Option String :=
  (given.find? fun entry => entry.1 = name).map Prod.snd

def give (command : Option CommandName) (given : Given) (name : OptionName) (value : String) :
    Except Halt Given :=
  if name = .help then .error (.help (.of command))
  else if name = .version then .error .version
  else if name.takesPath && value.isEmpty then .error (.usage (.emptyPath name))
  else if (given.value? name).isSome then .error (.usage (.repeatedOption name))
  else .ok (given ++ [(name, value)])

def isOptionWord (word : String) : Bool := word.toList.head? = some '-' && word ≠ "-"

def commandNamed? (word : String) : Option CommandName :=
  match word with
  | "start" => some .start
  | "status" => some .status
  | "keygen" => some .keygen
  | _ => none

def helpTopic : List String → Halt
  | [] => .help .daemon
  | ["help"] => .help .help
  | word :: words =>
    match commandNamed? word, words with
    | some command, [] => .help (.command command)
    | some _, word :: _ => .usage (.unknownCommand word)
    | none, _ => .usage (.unknownCommand word)

def nextValue (name : OptionName) : List String → Except Halt (String × List String)
  | [] => .error (.usage (.missingValue name))
  | word :: words =>
    if isOptionWord word then .error (.usage (.missingValue name)) else .ok (word, words)

/-- Takes in an option with the next word as its value. The value is looked at together with the
word behind it, so that `help` in the place of a command is heard first. -/
def giveNext (command : Option CommandName) (given : Given) (option : OptionName)
    (words : List String) : Except Halt (Given × List String) := do
  let (value, words) ← nextValue option words
  match command, words with
  | none, "help" :: words => .error (helpTopic words)
  | _, _ => return (← give command given option value, words)

def giveLong (command : Option CommandName) (given : Given) (text : List Char)
    (words : List String) : Except Halt (Given × List String) := do
  let name := String.ofList (text.takeWhile (· ≠ '='))
  match (optionsOf command).find? fun option => option.long = name, text.dropWhile (· ≠ '=') with
  | none, _ => .error (.usage (.unknownOption ("--" ++ name)))
  | some option, [] =>
    if option.takesValue then giveNext command given option words
    else return (← give command given option "", words)
  | some option, _ :: value =>
    if option.takesValue then return (← give command given option (String.ofList value), words)
    else .error (.usage (.unexpectedValue option))

def giveShort (command : Option CommandName) (given : Given) (words : List String) :
    List Char → Except Halt (Given × List String)
  | [] => .ok (given, words)
  | letter :: text =>
    match (optionsOf command).find? fun option => option.short = letter with
    | none => .error (.usage (.unknownOption (String.ofList ['-', letter])))
    | some option =>
      if !option.takesValue then do
        let given ← give command given option ""
        giveShort command given words text
      else
        match text with
        | [] => giveNext command given option words
        | '=' :: value => return (← give command given option (String.ofList value), words)
        | value => return (← give command given option (String.ofList value), words)

/-- Takes in all options up to the first word that is none. Each step takes at least one word, so as
many steps as there are words are enough. -/
def giveOptions (command : Option CommandName) : Nat → Given → List String →
    Except Halt (Given × List String)
  | 0, given, words => .ok (given, words)
  | steps + 1, given, words =>
    match words with
    | [] => .ok (given, [])
    | word :: rest =>
      match word.toList with
      | ['-', '-'] =>
        match rest with
        | [] => .ok (given, [])
        | word :: _ => .error (.usage (.unexpectedWord word))
      | '-' :: '-' :: text => do
        let (given, rest) ← giveLong command given text rest
        giveOptions command steps given rest
      | ['-'] => .ok (given, words)
      | '-' :: text => do
        let (given, rest) ← giveShort command given rest text
        giveOptions command steps given rest
      | _ => .ok (given, words)

inductive Command where
  | start (dataDirectory listen : Option String) (memory : Bool)
  | status
  | keygen
  deriving DecidableEq, Repr

structure Invocation where
  configPath : Option String
  command : Command
  deriving DecidableEq, Repr

/-- Reads the words of a command line. A configuration file that is named after the command is
preferred to one that is named before it. -/
def Invocation.ofWords (words : List String) : Except Halt Invocation := do
  let (before, words) ← giveOptions none (words.length + 1) [] words
  match words with
  | [] => .error (.usage .missingCommand)
  | "help" :: words => .error (helpTopic words)
  | word :: words =>
    match commandNamed? word with
    | none => .error (.usage (.unknownCommand word))
    | some name => do
      let (given, words) ← giveOptions (some name) (words.length + 1) [] words
      match words with
      | word :: _ => .error (.usage (.unexpectedWord word))
      | [] =>
        let command : Command :=
          match name with
          | .start =>
            .start (given.value? .dataDirectory) (given.value? .listen)
              (given.value? .memory).isSome
          | .status => .status
          | .keygen => .keygen
        return ⟨(given.value? .config).or (before.value? .config), command⟩

end VerifiableLog.Daemon
