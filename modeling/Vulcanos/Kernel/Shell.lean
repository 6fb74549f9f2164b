import Vulcanos.Kernel.Stdio

/-!
# `shell.c`

The commands of the shell, and the counter that `timer` shows.
-/

namespace Vulcanos

/-- What `processCommand` calls. -/
inductive ShellCommand where
  | helper | testInterrupts | clearPrompt | about | registerDump | timerDump | systemFetcher
  | reboot | emptyLine | notFound
deriving Repr, DecidableEq

/-- The comparisons of `processCommand`. -/
def ShellCommand.select (cmd : List UInt8) : ShellCommand :=
  if strcmp cmd (literal "help") = some 0 then .helper
  else if strcmp cmd (literal "int") = some 0 then .testInterrupts
  else if strcmp cmd (literal "clear") = some 0 ∨ strcmp cmd (literal "cls") = some 0 then
    .clearPrompt
  else if strcmp cmd (literal "about") = some 0 then .about
  else if strcmp cmd (literal "regs") = some 0 then .registerDump
  else if strcmp cmd (literal "timer") = some 0 then .timerDump
  else if strcmp cmd (literal "fetch") = some 0 then .systemFetcher
  else if strcmp cmd (literal "reboot") = some 0 then .reboot
  else if strcmp cmd (literal "") = some 0 then .emptyLine
  else .notFound

/-- The lines a command answers to. -/
def ShellCommand.names : ShellCommand → List String
  | .helper => ["help"]
  | .testInterrupts => ["int"]
  | .clearPrompt => ["clear", "cls"]
  | .about => ["about"]
  | .registerDump => ["regs"]
  | .timerDump => ["timer"]
  | .systemFetcher => ["fetch"]
  | .reboot => ["reboot"]
  | .emptyLine => [""]
  | .notFound => []

/-! ### `timer.c` and `timer_dump` -/

/-- `timer_callback`, on `tick`. -/
def timerCallback (tick : Nat) : Nat := Word.add32 tick 1

/-- `tick`, when the timer has called back `n` times since boot. -/
def ticks (n : Nat) : Nat := timerCallback^[n] 0

/-- `timer_dump`, with its array. -/
def timerDump (tick : Nat) (buf : Buffer) : Except Stop (Buffer × List Print) := do
  let buf ← uitoa tick buf 10
  let title ← printfColor 0 TtyColors.lightGreen.code TtyColors.black.code
    (Memory.writeBytes 0 (literal "\nTicks since boot: ") fun _ => 0)
  let number ← printfColor 0 TtyColors.lightCyan.code TtyColors.black.code buf.bytes
  .ok (buf, [title, number])

end Vulcanos
