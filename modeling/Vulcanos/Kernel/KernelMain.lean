import Vulcanos.Kernel.Gdt
import Vulcanos.Kernel.Isr
import Vulcanos.Kernel.Paging
import Vulcanos.Kernel.Timer

/-!
# `kernel_main.c`

The start of the kernel: the two checks on what the boot loader passes, the drivers, the memory
manager and its test, and the first prompt. No interrupt is taken before the end. What is on the
screen when one of the checks fails is left out.
-/

namespace Vulcanos

def multiboot2BootloaderMagic : Nat := 0x36d76289

def pic1StartInterrupt : UInt8 := 0x20
def pic2StartInterrupt : UInt8 := 0x28

/-- What `kernel_main` works on: the console and the table of handlers, the memory manager, the two
tables that the processor reads, and the chips. -/
structure Computer where
  system : System
  kernel : Kernel
  gdt : List GdtEntry
  idt : Nat → IdtEntry
  pics : Pics
  pit : Pit

/-- A call that does not return ends the caller too. -/
def Halt.lift {α : Type} : Except Stop α → Except Halt α
  | .ok a => .ok a
  | .error s => .error (.stop s)

namespace Computer

-- the bytes in the local array of `printf`
variable (array : Buffer)

/-- Calls of `kprint_c`. -/
def print (prints : List Print) (c : Computer) : Computer :=
  { c with system := c.system.print prints }

/-- `printf` of numbers. -/
def printf (format : String) (ap : List Nat) (c : Computer) : Except Halt Computer :=
  match Vulcanos.printf (literal format) (fun _ => 0) ap array with
  | some p => .ok (c.print p.prints)
  | none => .error .undefined

/-- `PRTOK`, `PRTAT` and `PRTER`. -/
def printTag (tag : String) (color : TtyColors) (c : Computer) : Except Halt Computer := do
  let c ← c.printf array "\n[" []
  (c.print [inColor tag color]).printf array "]" []

def prtOk (c : Computer) : Except Halt Computer := c.printTag array " OK " .lightGreen
def prtAt (c : Computer) : Except Halt Computer := c.printTag array " ** " .lightBrown
def prtEr (c : Computer) : Except Halt Computer := c.printTag array " ERR " .lightRed

/-- `register_interrupt_handler`. -/
def register (n : Nat) (handler : IsrT) (c : Computer) : Computer :=
  { c with system := c.system.registerInterruptHandler n handler }

def gdtSetup (c : Computer) : Computer := { c with gdt := initGdt }

def idtSetup (addr : Label → BitVec 32) (c : Computer) : Computer :=
  { c with
    idt := initIdt addr
    pics := c.pics.picRemap pic1StartInterrupt pic2StartInterrupt }

def initTimer (frequency : Nat) (c : Computer) : Except Halt Computer :=
  match c.pit.initTimer frequency with
  | some pit => .ok { c.register irq0 .timerCallback with pit := pit }
  | none => .error .undefined

def initKeyboard (c : Computer) : Computer := c.register irq1 .keyboardCallback

/-- `init_paging`, each loop with at most `fuel` iterations. -/
def initPaging (fuel : Nat) (c : Computer) : Except Halt Computer := do
  let k ← Halt.lift (c.kernel.initPaging fuel)
  .ok { c.register 14 .pageFault with kernel := k }

def kmalloc (fuel size : Nat) (c : Computer) : Except Halt (Nat × Computer) := do
  let (addr, _, k) ← Halt.lift (Kernel.kmalloc (Kernel.alloc fuel) size c.kernel)
  .ok (addr, { c with kernel := k })

def kfree (p : Nat) (c : Computer) : Except Halt Computer := do
  let k ← Halt.lift (Kernel.kfree p c.kernel)
  .ok { c with kernel := k }

/-- The checks on what the boot loader passes. -/
def checkBoot (magic addr : Nat) (c : Computer) : Except Halt Unit :=
  if magic ≠ multiboot2BootloaderMagic then do
    let c ← c.prtEr array
    let _ ← c.printf array "   - Invalid magic number: %x\n" [magic]
    .error (.stop (.panic "Invalid multiboot magic number"))
  else if addr &&& 7 ≠ 0 then do
    let c ← c.prtEr array
    let _ ← c.printf array "   - Unaligned mbi: %x\n" [addr]
    .error (.stop (.panic "Unaligned multiboot MBI"))
  else .ok ()

def testHeap (fuel : Nat) (c : Computer) : Except Halt Computer := do
  let c ← c.prtAt array
  let c ← c.printf array "   - Testing heap...\t" []
  let (x, c) ← c.kmalloc fuel 32
  let (y, c) ← c.kmalloc fuel 32
  let c ← c.printf array "x: %x, y: %x" [x, y]
  let c ← c.kfree y
  let (z, c) ← c.kmalloc fuel 8
  let c ← c.printf array ", z: %x" [z]
  if z ≠ y then do
    let _ ← c.prtEr array
    .error (.stop (.panic "Different heap pages"))
  else do
    let c ← c.kfree z
    let c ← c.kfree x
    let c ← c.prtOk array
    c.printf array "   - Heap works!" []

def initPrompt (c : Computer) : Computer :=
  { c with system := { c.system with
    keyboard := { c.system.keyboard with tty := c.system.keyboard.tty.initPrompt } } }

def kernelMain (fuel : Nat) (stubs : Label → BitVec 32) (magic addr : Nat) (c : Computer) :
    Except Halt Computer := do
  c.checkBoot array magic addr
  let c ← c.printf array "Loading kernel, wait please..." []
  let c ← c.gdtSetup.prtOk array
  let c ← c.printf array "   - Loaded GDT" []
  let c ← (c.idtSetup stubs).prtOk array
  let c ← c.printf array "   - Loaded IDT" []
  let c ← c.initTimer 1
  let c ← c.prtOk array
  let c ← c.printf array "   - Loaded PIT" []
  let c ← c.initKeyboard.prtOk array
  let c ← c.printf array "   - Loaded PS/2 driver" []
  let c ← c.initPaging fuel
  let c ← c.prtOk array
  let c ← c.printf array "   - Loaded Paging" []
  let c ← c.testHeap array fuel
  .ok c.initPrompt

end Computer

end Vulcanos
