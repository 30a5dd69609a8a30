import CodeBlocks.Config
import CodeBlocks.Language

/-! # Error — what can go wrong

    Text that does not parse cleanly is no error: the tree carries that
    as data.  Errors are causes; their wording is in `message` alone. -/

namespace CodeBlocks

/-- Why a grammar is not in use. -/
inductive GrammarFault where
  /-- It could not be loaded. -/
  | unavailable
  /-- It was loaded, but the engine does not accept it. -/
  | incompatible
  /-- The engine has none. -/
  | notAttached
deriving DecidableEq

/-- Why a file gives no text. -/
inductive FileFault where
  | missing
  | notText
deriving DecidableEq

/-- An error of the library. -/
inductive Error where
  /-- The engine gave no tree at all. -/
  | parseFailed (language : Language)
  | unsupportedLanguage (id : String)
  | grammar (language : Language) (fault : GrammarFault)
  | invalidConfig (fault : ConfigFault)
  | disposed
  | file (fault : FileFault)
  | undecodableConfig
deriving DecidableEq

namespace GrammarFault

/-- What is wrong with a language's grammar, in words. -/
def message (language : Language) : GrammarFault → String
  | unavailable => "no grammar for " ++ language.name
  | incompatible =>
      language.name ++ ": Incompatible language version 1. Expected minimum 13, maximum 14"
  | notAttached => language.name ++ " grammar not attached"

end GrammarFault

namespace FileFault

/-- What is wrong with a file, in words. -/
def message : FileFault → String
  | missing => "No such file or directory (os error 2)"
  | notText => "stream did not contain valid UTF-8"

end FileFault

namespace Error

/-- An error in words. -/
def message : Error → String
  | parseFailed language => "Parser failed to produce a syntax tree for " ++ language.name
  | unsupportedLanguage id => "Unsupported language: " ++ id
  | grammar language fault => "Grammar error: " ++ fault.message language
  | invalidConfig fault => "Invalid configuration: " ++ fault.message
  | disposed => "Parser has been disposed"
  | file fault => "IO error: " ++ fault.message
  | undecodableConfig => "Config decode error"

end Error

namespace ParserConfig

/-- Refuses settings out of range. -/
def validate (c : ParserConfig) : Except Error Unit :=
  match c.fault? with
  | some fault => .error (.invalidConfig fault)
  | none => .ok ()

/-- The settings of a TOML text, if they are in range. -/
def ofToml (text : String) : Except Error ParserConfig := do
  match (Toml.parse? text).bind ofMembers? with
  | none => throw .undecodableConfig
  | some config =>
      config.validate
      return config

/-- The settings of a file's content. -/
def ofFile (content : Except FileFault String) : Except Error ParserConfig :=
  match content with
  | .error fault => .error (.file fault)
  | .ok text => ofToml text

end ParserConfig

end CodeBlocks
