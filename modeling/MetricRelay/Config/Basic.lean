import MetricRelay.Config.Error
import MetricRelay.Config.Sections

/-!
# Configurations

A `Config` is all settings together with the directory that they were
loaded from. It is loaded from a tree or from the file of a directory,
checked, and changed by overrides, which are applied one after the other:
where one fails, those before it stay in effect.
-/

namespace MetricRelay

open Config

/-- The complete configuration. -/
structure Config where
  /-- The directory it was loaded from; empty if it was not. -/
  path : String
  values : Values

namespace Config

def default : Config := ⟨"", .default⟩

def fileName : String := "config.yml"

def within (directory name : String) : String :=
  if Text.startsWith name "/" then name
  else if directory = "" || Text.endsWithChar directory '/' then directory ++ name
  else directory ++ "/" ++ name

def filePath (directory : String) : String :=
  within directory fileName

/-! ## Loading -/

/-- Checks what the structure does not: the key pattern must be one. -/
def check (origin : Origin) (values : Values) : Except ConfigError Unit :=
  match KeyPattern.parse values.aggregate.keyPattern with
  | .ok _ => .ok ()
  | .error e => .error ⟨.invalidValue, origin, some (.keyPattern e)⟩

/-- The configuration that a tree describes. -/
def ofTree (t : Tree) : Except ConfigError Config :=
  match Values.read? t with
  | none => .error ⟨.badJson, .unknown, some .form⟩
  | some values => (check .unknown values).map fun _ => ⟨"", values⟩

/-- What is found where the file of a directory should be. -/
inductive File (ν : Type) where
  /-- Nothing that can be opened. -/
  | missing
  /-- Something that cannot be read as a value. -/
  | unreadable
  /-- A file with a value. -/
  | holding (value : ν)

/-- The configuration of a directory, given what its file holds. -/
def ofFile {ν : Type} [Source ν] (directory : String) (file : File ν) :
    Except ConfigError Config :=
  let origin := Origin.file (filePath directory)
  match file with
  | .missing => .error ⟨.couldNotOpenFile, origin, some .file⟩
  | .unreadable => .error ⟨.badYaml, origin, some .form⟩
  | .holding v =>
    match Values.read? v with
    | none => .error ⟨.badYaml, origin, some .form⟩
    | some values => (check origin values).map fun _ => ⟨directory, values⟩

/-! ## What settings stand for -/

/-- The addresses of the statsd server for internal measurements. -/
def statsdAddresses (c : Config) : Except ConfigError (List Net.SocketAddress) :=
  match c.values.metrics.statsd with
  | none => .ok []
  | some text =>
    match Net.SocketAddress.read text with
    | .ok a => .ok [a]
    | .error e => .error ⟨.invalidValue, .file c.path, some (.address e)⟩

def tree (c : Config) : Tree :=
  c.values.tree

end Config

/-! ## Overrides -/

/-- Values that take precedence over those of the file. -/
structure Overrides where
  nameSpace : Option String
  exchange : Option String
  /-- Whether messages have headers, as a text. -/
  addHeaders : Option String
  /-- The namespace of received metrics that have none. -/
  listenerNameSpace : Option String
  /-- The servers of the broker's own client. -/
  serverList : Option String
  statsd : Option String
  /-- The log level, as a text. -/
  logLevel : Option String
deriving Repr, DecidableEq

namespace Overrides

def none : Overrides :=
  ⟨.none, .none, .none, .none, .none, .none, .none⟩

/-- Reads a flag that was typed in; nothing at all is a no. -/
def flag? (s : String) : Option Bool :=
  -- no letter outside ASCII has a letter of these words as its lower case
  let s := Text.lowerAscii s
  if s = "true" || s = "1" then some true
  else if s = "false" || s = "0" || s = "" then some false
  else .none

/-- The name of the parameter with the servers. -/
def serverParameter : String := "bootstrap.servers"

/-- The parameters with the given servers in the first parameter for
them, or in one more. -/
def withServers (servers : String) : List ClientParameter → List ClientParameter
  | [] => [⟨serverParameter, servers⟩]
  | p :: ps =>
    if p.name = serverParameter then { p with value := servers } :: ps
    else p :: withServers servers ps

/-- The settings with what is overridden without a check before the
headers. -/
def applyNames (o : Overrides) (v : Values) : Values :=
  { v with publishing :=
      { v.publishing with
        nameSpace := o.nameSpace.or v.publishing.nameSpace
        exchange := o.exchange.getD v.publishing.exchange } }

def applyHeaders (o : Overrides) (v : Values) : Except ConfigError Values :=
  match o.addHeaders with
  | .none => .ok v
  | some s =>
    match flag? s with
    | some b => .ok { v with publishing := { v.publishing with addHeaders := b } }
    | .none => .error ⟨.invalidValue, .override "add_headers", .none⟩

/-- The settings with what is overridden without a check behind the
headers. -/
def applyServers (o : Overrides) (v : Values) : Values :=
  { v with
    listener := ⟨o.listenerNameSpace.getD v.listener.defaultNameSpace⟩
    clientParameters :=
      match o.serverList with
      | .none => v.clientParameters
      | some servers => withServers servers v.clientParameters
    metrics := { v.metrics with statsd := o.statsd.or v.metrics.statsd } }

def applyLevel (o : Overrides) (v : Values) : Except ConfigError Values :=
  match o.logLevel with
  | .none => .ok v
  | some s =>
    match Log.Level.parse? s with
    | some level => .ok { v with logging := { v.logging with level } }
    | .none => .error ⟨.invalidValue, .override "log_level", some .level⟩

end Overrides

namespace Config

/-- The configuration with overrides, and the failure of the first that
is not accepted; those before it are in effect. -/
def override (c : Config) (o : Overrides) : Option ConfigError × Config :=
  let named := o.applyNames c.values
  match o.applyHeaders named with
  | .error e => (some e, { c with values := named })
  | .ok v =>
    let served := o.applyServers v
    match o.applyLevel served with
    | .error e => (some e, { c with values := served })
    | .ok v => (none, { c with values := v })

end Config

end MetricRelay
