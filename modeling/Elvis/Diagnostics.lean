import Elvis.Bytes

/-!
Diagnostics: one line a message, under the name of the program, with colours if they are on. A
message below the threshold is not written.
-/

namespace Elvis

inductive ColorMode
  | auto
  | always
  | never
deriving DecidableEq, Repr

/-- What a piece of a diagnostic is, which decides its colour. -/
inductive Role
  | program
  | error
  | warning
  | note
deriving DecidableEq, Repr

/-- Levels from the most to the least important. -/
inductive Level
  | error
  | warning
  | info
  | debug
deriving DecidableEq, Repr

/-- Where colours may be shown, by what is known of the stream and the environment. -/
structure Terminal where
  isTerminal : Bool
  noColor : Bool
  dumb : Bool
deriving DecidableEq, Repr

structure Diagnostics where
  program : Bytes
  threshold : Level
  color : Bool
deriving DecidableEq, Repr

namespace ColorMode

def name : ColorMode → Bytes
  | auto => "auto"
  | always => "always"
  | never => "never"

def ofName? (text : Bytes) : Option ColorMode :=
  [auto, always, never].find? (·.name = text)

/-- Without an order to the contrary, colours need a terminal that can show them. -/
def enabled (terminal : Terminal) : ColorMode → Bool
  | auto => !terminal.noColor && !terminal.dumb && terminal.isTerminal
  | always => true
  | never => false

end ColorMode

namespace Role

def code : Role → Bytes
  | program => "\x1b[1m"
  | error => "\x1b[1m\x1b[31m"
  | warning => "\x1b[1m\x1b[33m"
  | note => "\x1b[2m"

/-- The text in the colour of its role; an empty text takes no colour. -/
def paint (on : Bool) (role : Role) (text : Bytes) : Bytes :=
  if !on || text.isEmpty then text else role.code ++ text ++ "\x1b[0m"

end Role

namespace Level

def rank : Level → Nat
  | error => 0
  | warning => 1
  | info => 2
  | debug => 3

/-- The threshold for a number of requests for more output; quiet wins. -/
def ofVerbosity (verbose : Int) (quiet : Bool) : Level :=
  if quiet then error
  else if verbose ≤ 0 then warning
  else if verbose = 1 then info
  else debug

end Level

namespace Diagnostics

def enabled (d : Diagnostics) (level : Level) : Bool := level.rank ≤ d.threshold.rank

/-- The message under the label of its level. -/
def body (d : Diagnostics) (level : Level) (message : Bytes) : Bytes :=
  match level with
  | .error => Role.paint d.color .error message
  | .warning => Role.paint d.color .warning "warning:" ++ " " ++ message
  | .info => message
  | .debug => Role.paint d.color .note "debug:" ++ " " ++ message

/-- What is written for a message. -/
def log (d : Diagnostics) (level : Level) (message : Bytes) : Bytes :=
  if d.enabled level then
    Role.paint d.color .program (d.program ++ ":") ++ " " ++ d.body level message ++ "\n"
  else []

def error (d : Diagnostics) (message : Bytes) : Bytes := d.log .error message

def warning (d : Diagnostics) (message : Bytes) : Bytes := d.log .warning message

def info (d : Diagnostics) (message : Bytes) : Bytes := d.log .info message

def debug (d : Diagnostics) (message : Bytes) : Bytes := d.log .debug message

end Diagnostics

end Elvis
