import OffsetLogic.Logging.Filter

/-!
# Loggers

A logger is described by its format, its level, an optional filter text and two switches, and is
then **installed**, once in the life of a program. Installing settles the filter: a filter text of
the logger is used as it is; without one, the filter in the environment is used if it is
well-formed, and otherwise the filter made from the level, under which the reasoning core logs at
that level and everything else from `warn`.

What is installed already is an argument of `install`, which fails if there is something; the caller
keeps the state. The filter is settled first, so a malformed filter text is reported even where
nothing could be installed any more. A filter text in the environment that is malformed is not an
error, and is passed over without a warning.

An installed logger decides which events are logged (`Subscriber.logsEvent`): a message by its
target and its level, and the beginning of a search only if spans are logged.
-/

namespace OffsetLogic.Logging

/-- The layout of log lines. -/
inductive Format where
  /-- Several coloured lines for an event. -/
  | pretty
  /-- One plain line for an event. -/
  | compact
  /-- One JSON object for an event. -/
  | json
deriving DecidableEq, Inhabited

/-- Why no logger was installed. -/
inductive LoggingError where
  | invalidFilter (directive : String)
  | unknownLevel (text : String)
  | alreadyInstalled
deriving DecidableEq

/-- The message of an error. What the reader of filters has to say about a malformed one is not part
of it. -/
def LoggingError.message : LoggingError → String
  | invalidFilter directive => s!"Invalid log filter '{directive}': "
  | unknownLevel text => s!"Unknown log level '{text}'"
  | alreadyInstalled => "Failed to initialize tracing: "

/-- The level of a name; letters of either case. -/
def levelOfName (text : String) : Except LoggingError Level :=
  match text.toLower with
  | "trace" => .ok .trace
  | "debug" => .ok .debug
  | "info" => .ok .info
  | "warn" | "warning" => .ok .warn
  | "error" => .ok .error
  | _ => .error (.unknownLevel text)

/-- A description of what to log and how. -/
structure Logger where
  /-- The layout of log lines. -/
  format : Format := .pretty
  /-- The level from which the reasoning core logs. -/
  level : Level := .info
  /-- A filter text, which replaces the one made from the level. -/
  filter : Option String := none
  /-- Whether lines name the target of the event. -/
  showTargets : Bool := true
  /-- Whether the beginning and the end of spans are logged. -/
  spanEvents : Bool := false
deriving DecidableEq, Inhabited

/-- An installed logger. -/
structure Subscriber where
  /-- The layout of log lines. -/
  format : Format
  /-- Which events are logged. -/
  filter : Filter
  /-- Whether lines name the target of the event. -/
  showTargets : Bool
  /-- Whether the beginning and the end of spans are logged. -/
  spanEvents : Bool

namespace Logger

/-- What the targets of the reasoning core begin with. -/
def coreTarget : String := "deduce_kb"

/-- The plain one-line logger of a level. -/
def compact (level : Level) : Logger := { format := .compact, level }

/-- The filter text of the logger, without regard to the environment. -/
def directive (l : Logger) : String :=
  match l.filter with
  | some text => text
  | none => s!"warn,{coreTarget}={l.level.name}"

/-- The filter that the logger installs, given the filter text in the environment. -/
def effectiveFilter (environment : Option String) (l : Logger) : Except LoggingError Filter :=
  match l.filter, environment.bind Filter.parse? with
  | none, some filter => .ok filter
  | _, _ =>
    match Filter.parse? l.directive with
    | some filter => .ok filter
    | none => .error (.invalidFilter l.directive)

/-- The logger installed, given what is installed already. -/
def install (environment : Option String) (installed : Option Subscriber) (l : Logger) :
    Except LoggingError Subscriber := do
  let filter ← l.effectiveFilter environment
  match installed with
  | some _ => throw .alreadyInstalled
  | none => return ⟨l.format, filter, l.showTargets, l.spanEvents⟩

end Logger

namespace Subscriber

/-- Whether an event of a level from a target is logged. -/
def logs (s : Subscriber) (target : String) (level : Level) : Bool := s.filter.passes target level

/-- Whether a report of the core is logged: a span only if spans are. -/
def logsEvent (s : Subscriber) (e : Event) : Bool :=
  (e.span?.isNone || s.spanEvents) && s.logs e.target e.level

end Subscriber

end OffsetLogic.Logging
