import LtiUnit.Text.Utf8

/-!
# LtiUnit.Machine.Outcome

How programs end, and what they have said by then.
-/

namespace LtiUnit

/-- How a program has ended. -/
inductive ExitStatus where
  | code (n : Nat)
  | signal (n : Nat)
  deriving DecidableEq, Repr

namespace ExitStatus

/-- The names of the signals, from the first one on. -/
def signalNames : List String :=
  ["SIGHUP", "SIGINT", "SIGQUIT", "SIGILL", "SIGTRAP", "SIGABRT", "SIGBUS", "SIGFPE", "SIGKILL",
   "SIGUSR1", "SIGSEGV", "SIGUSR2", "SIGPIPE", "SIGALRM", "SIGTERM", "SIGSTKFLT", "SIGCHLD",
   "SIGCONT", "SIGSTOP", "SIGTSTP", "SIGTTIN", "SIGTTOU", "SIGURG", "SIGXCPU", "SIGXFSZ",
   "SIGVTALRM", "SIGPROF", "SIGWINCH", "SIGIO", "SIGPWR", "SIGSYS"]

def isSuccess : ExitStatus → Bool
  | .code 0 => true
  | _ => false

def text : ExitStatus → String
  | .code n => "exit status: " ++ toString n
  | .signal n =>
    "signal: " ++ toString n ++
      match signalNames[n - 1]? with
      | some name => " (" ++ name ++ ")"
      | none => ""

end ExitStatus

/-- The end of a program, and what it has written to its two outputs. -/
structure Outcome where
  status : ExitStatus
  out : ByteArray
  err : ByteArray

namespace Outcome

def outText (o : Outcome) : String := Text.ofBytes o.out

def errText (o : Outcome) : String := Text.ofBytes o.err

end Outcome
end LtiUnit
