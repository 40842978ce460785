import MetricRelay.Aggregate
import MetricRelay.Log.Level
import MetricRelay.Net.SocketAddress

/-!
# Failures of configurations

What went wrong with a configuration, where the faulty value came from
and what caused it.
-/

namespace MetricRelay.Config

/-- What went wrong. -/
inductive ErrorKind where
  /-- The file is missing or cannot be read. -/
  | couldNotOpenFile
  /-- The file does not have the form of a configuration. -/
  | badYaml
  /-- The data do not have the form of a configuration. -/
  | badJson
  /-- A value is out of range or malformed. -/
  | invalidValue
deriving Repr, DecidableEq

namespace ErrorKind

def text : ErrorKind → String
  | couldNotOpenFile => "could not open config file"
  | badYaml => "could not parse yaml config file"
  | badJson => "could not parse json config file"
  | invalidValue => "invalid config value"

end ErrorKind

/-- Where a faulty value came from. -/
inductive Origin where
  | unknown
  | file (path : String)
  | override (field : String)
deriving Repr, DecidableEq

namespace Origin

/-- What is said about the origin behind what went wrong. -/
def text : Origin → String
  | unknown => ""
  | file path => " (file " ++ path ++ ")"
  | override field => " (field " ++ field ++ ")"

end Origin

/-- What a failure was caused by. -/
inductive Cause where
  /-- The file system. -/
  | file
  /-- The notation of the configuration or its structure. -/
  | form
  | keyPattern (e : InvalidKeyPattern)
  | address (e : Net.AddressFault)
  /-- A text that is no log level. -/
  | level
deriving Repr, DecidableEq

namespace Cause

def text : Cause → String
  | file => "file cannot be read"
  | form => "not the structure of a configuration"
  | keyPattern e => e.message
  | address e => e.message
  | level => Log.Level.parseMessage

end Cause

/-- A failure to load, check or override a configuration. -/
structure ConfigError where
  kind : ErrorKind
  /-- Where the faulty value came from. -/
  origin : Origin
  cause : Option Cause
deriving Repr, DecidableEq

namespace ConfigError

/-- The text of a failure without its cause. -/
def text (e : ConfigError) : String :=
  e.kind.text ++ e.origin.text

/-- The texts of a failure and its cause. -/
def texts (e : ConfigError) : List String :=
  e.text :: (e.cause.map Cause.text).toList

end ConfigError

end MetricRelay.Config
