import Vulcanos.Kernel.Cpuid
import Vulcanos.Kernel.Shell
import Vulcanos.Kernel.Time

/-!
# The commands of `shell.c` and `fetch.c`

What each command prints, as the calls of `kprint_c` it makes, and the loop of `reboot` that empties
the keyboard controller. A string that `printf` prints through `%s` is one call.
-/

namespace Vulcanos

/-- `kprint_c` on a string and its `strlen`. -/
def printed (s : List UInt8) (fg bg : TtyColors) : Print :=
  { buf := fun i => s.getD i 0, len := s.length, fg := fg.code, bg := bg.code }

/-- `printf_color` on a text of the source, on black. -/
def inColor (s : String) (fg : TtyColors) : Print := printed (bytesOf s) fg .black

def puts (s : String) : List Print := [inColor s .white, printByte 0x0A]

/-- The registers that `register_dump` reads. -/
structure CpuRegisters where
  eax : Nat
  ebx : Nat
  ecx : Nat
  edx : Nat
  esi : Nat
  edi : Nat
  ebp : Nat
  esp : Nat

/-- What a command finds around it: the processor, the clock, the bytes in its local arrays, the
version that was compiled in, and what the status port of the keyboard controller returns, read by
read. A loop that waits has `fuel` rounds. -/
structure Surroundings where
  cpu : Cpu
  registers : CpuRegisters
  rtc : Rtc
  cmos : Cmos
  rightFirst : Nat → Bool
  fuel : Nat
  array : Buffer
  version : List UInt8
  status : Nat → UInt8

/-! ### `shell.c` -/

def helper : List Print :=
  puts ("\nList of available commands:\n" ++
    "\nhelp        - Print this helper" ++
    "\nint         - Test some interrupts" ++
    "\nclear, cls  - Clear the screen" ++
    "\nregs        - Prints register dump" ++
    "\ntimer       - Prints timer tick" ++
    "\nabout       - About this kernel" ++
    "\nreboot      - Reboot the system")

/-- What `about` prints, piece by piece. -/
def aboutPicture : List (String × TtyColors) :=
  [("\n             \\                  /,\n", .lightRed),
    ("    _________))                ((__________\n", .lightRed),
    ("   /.-------./\\\\    \\    /    //\\.--------.\\", .lightRed),
    ("  Vulcan", .lightMagenta),
    ("OS ", .lightBrown),
    ("is x86 monolithic \n", .lightGreen),
    ("  //#######//##\\\\   ))  ((   //##\\\\########\\\\", .lightRed),
    ("  kernel written from scratch \n", .lightGreen),
    (" //#######//###((  ((    ))  ))###\\\\########\\\\", .lightRed),
    ("  in C following the UNIX \n", .lightGreen),
    ("((#######((#####\\\\  \\\\  //  //#####))########))", .lightRed),
    ("  philosophy. \n", .lightGreen),
    (" \\##' `###\\######\\\\  \\)(/  //######/####' `##/", .lightRed),
    ("    By Marco Cetica 2019-2021 \n", .lightGreen),
    ("  )'    ``#)'  `##\\`->oo<-'/##'  `(#''     `(", .lightRed),
    ("      https://git.io/JtzuAs\n", .white),
    ("          (       ``\\`..'/''       )\n", .lightRed),
    ("                     \\''(\n", .lightRed),
    ("                      `- )\n", .lightRed),
    ("                      / /\n", .lightRed),
    ("                     ( /\\\n", .lightRed),
    ("                     /\\| \\\n", .lightRed),
    ("                    (  \\\n", .lightRed),
    ("                        )\n", .lightRed),
    ("                       /\n", .lightRed),
    ("                      (\n", .lightRed),
    ("                      `\n", .lightRed)]

def about : List Print := aboutPicture.map fun x => inColor x.1 x.2

def registerDump (e : Surroundings) : Option (List Print) := do
  let r := e.registers
  let p ← printf (literal ("    EAX: %x\n" ++ "    EBX: %x\n" ++ "    ECX: %x\n" ++
      "    EDX: %x\n" ++ "    ESX: %x\n" ++ "    EDI: %x\n" ++ "    EBP: %x\n" ++
      "    ESP: %x\n")) (fun _ => 0)
    [r.eax, r.ebx, r.ecx, r.edx, r.esi, r.edi, r.ebp, r.esp] e.array
  some ([inColor ("\n===================================\n" ++
      "  BEGIN 32 BITS CPU REGISTER DUMP    \n" ++
      "===================================\n") .lightBrown] ++ p.prints ++
    [inColor ("\n==================================\n" ++
      "   END 32 BITS CPU REGISTER DUMP    \n" ++
      "==================================\n") .lightBrown])

/-- The `do` loop of `reboot`, at most `fuel` rounds, with the ports it has read, latest first. -/
def rebootLoop (status : Nat → UInt8) : Nat → Nat → List Nat → Option (List Nat)
  | 0, _, _ => none
  | fuel + 1, i, ports =>
      let ports := if status i &&& 1 ≠ 0 then 0x60 :: 0x64 :: ports else 0x64 :: ports
      if status i &&& 2 ≠ 0 then rebootLoop status fuel (i + 1) ports else some ports

/-! ### `fetch.c` -/

/-- `printf("%d", n)`. -/
def printDecimal (n : Nat) (array : Buffer) : Option (List Print) :=
  (printf (literal "%d") (fun _ => 0) [n] array).map (·.prints)

def getDate (e : Surroundings) : Option (List Print) := do
  let (day, cmos) ← e.rtc.getTime (e.rightFirst timeRDay) e.fuel timeRDay e.cmos
  let day ← printDecimal day e.array
  let (month, cmos) ← e.rtc.getTime (e.rightFirst timeRMonth) e.fuel timeRMonth cmos
  let month ← printDecimal month e.array
  let (year, _) ← e.rtc.getTime (e.rightFirst timeRYear) e.fuel timeRYear cmos
  let year ← printDecimal year e.array
  some (day ++ [inColor "/" .lightBlue] ++ month ++ [inColor "/" .lightBlue] ++ year)

/-- `get_cpuid`, `none` when a string was never assigned. -/
def showCpuid (e : Surroundings) : Option (List Print) := do
  let type ← e.cpu.getCpuType
  let family ← e.cpu.getCpuFamily
  some [inColor "CPU type: " .lightCyan, printed type .white .black, inColor " (" .white,
    printed family .white .black, printByte 0x29]

def getVersion (e : Surroundings) : List Print :=
  [inColor "\n\t\t\t\t\t   Version: " .lightCyan, printed e.version .lightGreen .black]

def systemFetcher (e : Surroundings) : Option (List Print) := do
  let date ← getDate e
  let cpuid ← showCpuid e
  some ([inColor "\n __   __   ___  ___    " .lightRed, printed defaultUser .lightCyan .black,
      inColor "@" .lightRed, printed defaultHostname .lightCyan .black,
      inColor "\n \\ \\ / /  / _ \\/ __|   " .lightRed, inColor "-----------" .lightRed,
      inColor "\n  \\ V /  | (_) \\__ \\   " .lightRed, inColor "Date: " .lightCyan] ++ date ++
    [inColor "\n   \\_/    \\___/|___/   " .lightRed] ++ cpuid ++ getVersion e)

/-! ### What is printed -/

/-- The calls of `kprint_c` that a command makes, if it only prints. -/
def shellOutput (tick : Nat) (e : Surroundings) : ShellCommand → Option (List Print)
  | .helper => some helper
  | .about => some about
  | .registerDump => registerDump e
  | .timerDump => (timerDump tick e.array).toOption.map (·.2)
  | .systemFetcher => systemFetcher e
  | .emptyLine => some (puts "")
  | .notFound => some (puts "\nCommand not found!")
  | .testInterrupts | .clearPrompt | .reboot => none

end Vulcanos
