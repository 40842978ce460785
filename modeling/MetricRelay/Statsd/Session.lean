import MetricRelay.Statsd.Client

/-!
# Which client a thread uses

There is one global client, and every thread has a client of its own. A
thread takes the global client when it first measures something; what is
installed or disabled later changes the global client and that of the
current thread only. A capture gives the main thread a client for the
time of some steps.

A `Session` follows the clients through steps of the main thread and of
named threads, with the lines that each client has sent.
-/

namespace MetricRelay.Statsd

/-- A client with its lines. -/
structure Outlet where
  client : Client
  /-- The client was installed and does not belong to a capture. -/
  installed : Bool
  /-- The lines it has sent. -/
  lines : List String

/-- The clients of a program. They are numbered in the order in which
they came about. -/
structure Session where
  outlets : List Outlet
  globalClient : Option Nat
  mainClient : Option Nat
  /-- The clients of the threads that have measured something, under
  their names. -/
  threads : Table (Option Nat)
  logged : List Log.Event

namespace Session

/-- No client, and the main thread has none for good. -/
def start : Session := ⟨[], none, none, .empty, []⟩

/-- The session with one more client. Its number is the number of clients
before. -/
def add (s : Session) (c : Client) (installed : Bool) : Session :=
  { s with outlets := s.outlets ++ [⟨c, installed, []⟩] }

/-- Installs a client for the main thread and for all threads that have
not measured anything. -/
def install (s : Session) (c : Client) : Session :=
  let n := s.outlets.length
  { s.add c true with globalClient := some n, mainClient := some n }

def disable (s : Session) : Session :=
  { s with globalClient := none, mainClient := none }

/-- Adds a line to those of a client. -/
def addLine (outlets : List Outlet) (n : Nat) (line : String) : List Outlet :=
  outlets.modify n fun o => { o with lines := o.lines ++ [line] }

/-- Sends a reading through a client. -/
def sendThrough (s : Session) (client? : Option Nat) (reading : Reading)
    (own? : Option SampleRate) (draw : Float) : Session :=
  match client?.bind fun n => s.outlets[n]?.map fun o => (n, o.client) with
  | none => s
  | some (n, client) =>
    match client.send reading own? draw with
    | .sampledAway => s
    | .dropped reason => { s with logged := s.logged ++ [Client.droppedEvent reason] }
    | .line text => { s with outlets := addLine s.outlets n text }

/-- Sends a reading from the main thread. -/
def emit (s : Session) (reading : Reading) (own? : Option SampleRate) (draw : Float) :
    Session :=
  s.sendThrough s.mainClient reading own? draw

/-- The session after a thread has asked for its client. -/
def touch (s : Session) (thread : String) : Session :=
  match s.threads.get? thread with
  | some _ => s
  | none => { s with threads := s.threads.insert thread s.globalClient }

def clientOf (s : Session) (thread : String) : Option Nat :=
  (s.threads.get? thread).getD s.globalClient

def emitOn (s : Session) (thread : String) (reading : Reading) (own? : Option SampleRate)
    (draw : Float) : Session :=
  let s := s.touch thread
  s.sendThrough (s.clientOf thread) reading own? draw

/-- The lines of each client that was installed and does not refuse
them, in the order of the clients. -/
def installedLines (s : Session) : List (List String) :=
  (s.outlets.filter fun o => o.installed && o.client.refusal.isNone).map (·.lines)

def active (s : Session) : Bool :=
  s.mainClient.isSome

def activeOn (s : Session) (thread : String) : Bool :=
  (s.clientOf thread).isSome

/-- Gives the main thread a client of its own for the time of a
capture: the number of that client, the client before, and the
session. -/
def beginCapture (s : Session) (c : Client) : Nat × Option Nat × Session :=
  let n := s.outlets.length
  (n, s.mainClient, { s.add c false with mainClient := some n })

/-- Ends a capture: the lines of its client, and the session with the
client before. -/
def endCapture (s : Session) (n : Nat) (before : Option Nat) : List String × Session :=
  (((s.outlets[n]?).map (·.lines)).getD [], { s with mainClient := before })

end Session

end MetricRelay.Statsd
