import Vulcanos.Kernel.Tty

/-!
# `keyboard.c`

The keyboard driver: a scan code a call, the line that is being typed in `command`, and at Enter the
shell. `trace` and `received` are no variables of the source. They list, latest first, the places of
the driver's arrays that were accessed and the 512 bytes of `command` whenever the shell was called.
A store behind the end of an array is in the trace; which other object it hits is not modelled.
-/

namespace Vulcanos

open Word

def keyboardScanCodes : List UInt8 :=
  [0, 27, 49, 50, 51, 52, 53, 54, 55, 56,    -- Esc, 1 to 8
    48, 48, 45, 61, 8,                       -- 0 (twice, there is no 9), - = and backspace
    9,
    113, 119, 101, 114,                      -- q w e r
    116, 121, 117, 105, 111, 112, 91, 93, 10, -- t y u i o p [ ] and Enter
    0,                                       -- Ctrl
    97, 115, 100, 102, 103, 104, 106, 107, 108, 59, -- a s d f g h j k l ;
    39, 96, 0,                               -- ' and the grave accent, left Shift
    92, 122, 120, 99, 118, 98, 110,          -- backslash, z x c v b n
    109, 44, 46, 47, 0,                      -- m , . / and right Shift
    42,
    0,                                       -- Alt
    32,
    0,                                       -- Caps lock
    0, 0, 0, 0, 0, 0, 0, 0, 0, 0, 0,         -- F1 to F10
    0, 0, 0, 0, 0,                           -- Num lock, Scroll lock, Home, up, page up
    45, 0, 0, 0, 43,                         -- - left, (none), right, +
    0, 0, 0, 0, 0,                           -- End, down, page down, Insert, Delete
    0, 0, 0, 0, 0, 0]                        -- (three none), F11, F12, others

/-- One call of `kprint_c` by a command. -/
structure Print where
  buf : Nat → UInt8
  len : Nat
  fg : Nat
  bg : Nat

/-- `processCommand`. All commands but two only print; what they print, which may depend on the
clock, the timer and the processor, is `prints`. -/
def processCommand (cmd : List UInt8) (prints : List Print) (t : Tty) : Tty :=
  if strcmp cmd (literal "clear") = some 0 ∨ strcmp cmd (literal "cls") = some 0 then t.clearPrompt
  else prints.foldl (fun t p => t.kprintC p.buf p.len p.fg p.bg) t

/-- An access of one of the driver's arrays. -/
inductive Access where
  | readScanCodes (i : Nat)
  | storeCommand (i : Nat)
  | storeTemp (i : Nat)
deriving Repr, DecidableEq

structure Keyboard where
  command : Nat → UInt8
  temp : Nat → UInt8
  cmdIndex : Nat
  shiftdown : Nat
  tty : Tty
  trace : List Access
  received : List (List UInt8)

/-- A scan code on the data port, and what a command prints that it starts. -/
structure KeyEvent where
  scanCode : Nat
  prints : List Print

namespace Keyboard

def storeCommand (i : Nat) (c : UInt8) (k : Keyboard) : Keyboard :=
  { k with command := Function.update k.command i c, trace := .storeCommand i :: k.trace }

def storeTemp (i : Nat) (c : UInt8) (k : Keyboard) : Keyboard :=
  { k with temp := Function.update k.temp i c, trace := .storeTemp i :: k.trace }

@[irreducible]
def clear (k : Keyboard) : Keyboard :=
  (List.range 512).foldl (fun k i => k.storeCommand i 0) k

/-- `clear_tmp`, which clears `command` as `clear` does. -/
@[irreducible]
def clearTmp (k : Keyboard) : Keyboard :=
  (List.range 512).foldl (fun k i => k.storeCommand i 0) k

/-- The loop that copies `command` to `temp`. -/
@[irreducible]
def saveCommand (k : Keyboard) : Keyboard :=
  (List.range k.cmdIndex).foldl (fun k i => k.storeTemp i (k.command i)) k

/-- The loop that copies `temp` to `command`. -/
@[irreducible]
def restoreCommand (k : Keyboard) : Keyboard :=
  (List.range k.cmdIndex).foldl (fun k i => k.storeCommand i (k.temp i)) k

def commandBytes (k : Keyboard) : List UInt8 := (List.range 512).map k.command

/-- The line behind a backspace. -/
def dropLast (k : Keyboard) : Keyboard :=
  let k := { k with cmdIndex := k.cmdIndex - 1 }
  k.saveCommand.clear.restoreCommand.clearTmp

/-- `processCommand(command)` and `cmd_index = 0`. -/
def runShell (prints : List Print) (k : Keyboard) : Keyboard :=
  { k with
    tty := processCommand k.commandBytes prints k.tty
    received := k.commandBytes :: k.received
    cmdIndex := 0 }

/-- `printf("%c", keycode)` and the store. -/
def fill (keycode : UInt8) (k : Keyboard) : Keyboard :=
  let k := { k with
    tty := k.tty.kprintC (fun _ => keycode) 1 TtyColors.white.code TtyColors.black.code }
  let k := k.storeCommand k.cmdIndex keycode
  { k with cmdIndex := add32 k.cmdIndex 1 }

end Keyboard

section Callback

-- the bytes in memory behind the table, by their distance from its start
variable (past : Nat → UInt8)

/-- `keyboard_scan_codes[scan_code]`. -/
def keycodeOf (scanCode : Nat) : UInt8 := keyboardScanCodes.getD scanCode (past scanCode)

/-- The read of the table, at whatever place the scan code says. -/
def Keyboard.look (scanCode : Nat) (k : Keyboard) : Keyboard :=
  { k with trace := .readScanCodes scanCode :: k.trace }

def keyboardCallback (e : KeyEvent) (k : Keyboard) : Keyboard :=
  let keycode := keycodeOf past e.scanCode
  let k := k.look e.scanCode
  if e.scanCode &&& 0x80 ≠ 0 then
    if e.scanCode = 0xAA ∨ e.scanCode = 0x86 then { k with shiftdown := 0 } else k
  else if keycode = 0x08 then
    if k.cmdIndex ≤ 0 then k
    else
      let k := k.dropLast
      { k with tty := k.tty.backspace }
  else if keycode = 0x0A then
    let k := (k.runShell e.prints).clear
    { k with tty := k.tty.initPrompt }
  else k.fill keycode

end Callback

end Vulcanos
