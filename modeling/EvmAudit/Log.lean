/-! Records of what a run reports while it goes on. -/

namespace EvmAudit

inductive Level where
  | info
  | warning
  | error
  | critical
  deriving DecidableEq, Repr, Inhabited

structure LogLine where
  level : Level
  text : String
  deriving DecidableEq, Repr, Inhabited

def Level.text : Level → String
  | .info => "INFO"
  | .warning => "WARNING"
  | .error => "ERROR"
  | .critical => "CRITICAL"

def LogLine.render (l : LogLine) : String := l.level.text ++ ":" ++ l.text

end EvmAudit
