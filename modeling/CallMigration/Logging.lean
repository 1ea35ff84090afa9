/-!
# Logging

What is logged is decided by a `Logger`, which is set up once.

* `LogLevel` : how serious a message is.
* `LoggerConfig` : what to log, and how.
* `Logger.install` : sets the logger up; a second attempt fails.
-/

namespace CallMigration

/-- How serious a message is. -/
inductive LogLevel where
  | trace
  | debug
  | info
  | warning
  | error
deriving DecidableEq, Repr, Inhabited

namespace LogLevel

def name : LogLevel → String
  | trace => "TRACE"
  | debug => "DEBUG"
  | info => "INFO"
  | warning => "WARNING"
  | error => "ERROR"

def filterName : LogLevel → String
  | warning => "WARN"
  | level => level.name

/-- The place of a level; the more serious, the higher. -/
def rank : LogLevel → Nat
  | trace => 0
  | debug => 1
  | info => 2
  | warning => 3
  | error => 4

instance : Ord LogLevel := ⟨fun a b => compare a.rank b.rank⟩

end LogLevel

/-- What to log, and how. -/
structure LoggerConfig where
  level : LogLevel
  includeLocation : Bool
  includeThreadId : Bool
  coloredOutput : Bool
deriving DecidableEq, Repr

/-- Everything from information on, in colours. -/
def LoggerConfig.default : LoggerConfig := ⟨.info, false, false, true⟩

/-- The logger of a process, if it has been set up. -/
structure Logger where
  installed : Option LoggerConfig
deriving DecidableEq, Repr

namespace Logger

def none : Logger := ⟨.none⟩

/-- Sets the logger up. Fails if that was done before. -/
def install (l : Logger) (config : LoggerConfig) : Option Logger :=
  if l.installed.isSome then .none else some ⟨some config⟩

end Logger

end CallMigration
