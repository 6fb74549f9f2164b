import Mathlib.Logic.Function.Basic
import Vulcanos.Kernel.LibcString
import Vulcanos.Library.Word

/-!
# `tty.c`

The console: 80 by 25 cells of two bytes in video memory, the place of the next character, and the
registers of the VGA controller that hold the place of the blinking cursor. `written` is no variable
of the source: it lists the cells `write_cell` was called for, latest first.
-/

namespace Vulcanos

open Memory Word

/-- `enum TTY_COLORS`. -/
inductive TtyColors where
  | black | blue | green | cyan | red | magenta | brown | lightGrey
  | darkGrey | lightBlue | lightGreen | lightCyan | lightRed | lightMagenta | lightBrown | white
deriving Repr, DecidableEq

def TtyColors.code (c : TtyColors) : Nat := c.ctorIdx

def videoMemAddr : Nat := 0x000B8000
def vgaWidth : Nat := 80
def vgaHeight : Nat := 25
def vgaCmdPort : Nat := 0x3D4
def vgaDataPort : Nat := 0x3D5
def vgaHighByte : Nat := 14
def vgaLowByte : Nat := 15

structure Tty where
  mem : Mem
  fbCol : Nat
  fbRow : Nat
  /-- The controller's register that the next byte on the data port goes to. -/
  crtcIndex : Nat
  crtc : Nat → Nat
  written : List Int

namespace Tty

/-- `outb`, as far as the VGA controller listens. -/
def outb (port value : Nat) (t : Tty) : Tty :=
  if port = vgaCmdPort then { t with crtcIndex := value }
  else if port = vgaDataPort then { t with crtc := Function.update t.crtc t.crtcIndex value }
  else t

def writeCell (i : Int) (c fg bg : Nat) (t : Tty) : Tty :=
  let fb := videoMemAddr + i * 2
  { t with
    mem := write8 (write8 t.mem fb.toNat c) (fb + 1).toNat
      (((bg &&& 0x0F) <<< 4) ||| (fg &&& 0x0F))
    written := i :: t.written }

def moveCursor (pos : Nat) (t : Tty) : Tty :=
  (((t.outb vgaCmdPort vgaHighByte).outb vgaDataPort ((pos >>> 8) &&& 0x00FF)).outb
    vgaCmdPort vgaLowByte).outb vgaDataPort (pos &&& 0x00FF)

/-- `fb_col + (fb_row * VGA_WIDTH)`, in a `uint16_t`. -/
def pos (t : Tty) : Nat := (t.fbCol + t.fbRow * vgaWidth) % 65536

def clearRow (row : Nat) (t : Tty) : Tty :=
  (List.range vgaWidth).foldl
    (fun t i => t.writeCell (int16 (row * vgaWidth + i)) 0x20 TtyColors.white.code
      TtyColors.black.code) t

def scroll (t : Tty) : Tty :=
  let t := { t with
    mem := memmove videoMemAddr (videoMemAddr + 2 * vgaWidth)
      (vgaWidth * 2 * (vgaHeight * 2 - 1)) t.mem }
  t.clearRow (vgaHeight - 1)

def newline (t : Tty) : Tty :=
  let t := if t.fbRow < vgaHeight - 1 then { t with fbRow := t.fbRow + 1 } else t.scroll
  let t := { t with fbCol := 1 }
  t.moveCursor t.pos

def cursorAdv (t : Tty) : Tty :=
  let t := if t.fbCol < vgaWidth - 1 then { t with fbCol := t.fbCol + 1 } else t.newline
  t.moveCursor t.pos

def tab (t : Tty) : Tty := (List.range 4).foldl (fun t _ => t.cursorAdv) t

def backspace (t : Tty) : Tty :=
  let t := { t with fbCol := sub32 t.fbCol 1 }
  t.writeCell (int16 t.pos) 0x20 TtyColors.white.code TtyColors.black.code

/-- One round of the loop of `kprint_c`. -/
def kprintByte (c : UInt8) (fg bg : Nat) (t : Tty) : Tty :=
  if c = 0x0A ∨ c = 0x0D then t.newline
  else if c = 0x09 then t.tab
  else (t.writeCell (int16 t.pos) c.toNat fg bg).cursorAdv

/-- `kprint_c`, with `buf` the bytes from the pointer on. -/
def kprintC (buf : Nat → UInt8) (len fg bg : Nat) (t : Tty) : Tty :=
  (List.range len).foldl (fun t i => t.kprintByte (buf i) fg bg) t

/-- `kprint_c` on a string and its `strlen`. -/
def kprintStr (s : List UInt8) (fg bg : TtyColors) (t : Tty) : Tty :=
  t.kprintC (fun i => s.getD i 0) s.length fg.code bg.code

def clearPrompt (t : Tty) : Tty :=
  let t := { t with fbCol := 1, fbRow := 0 }
  let t := (List.range (vgaWidth * vgaHeight)).foldl
    (fun t i => t.writeCell (int16 i) 0x20 TtyColors.white.code TtyColors.black.code) t
  t.moveCursor 0

end Tty

/-- `DEFAULT_USER` and `DEFAULT_HOSTNAME`, as the drivers' Makefile sets them. -/
def defaultUser : List UInt8 := bytesOf "root"
def defaultHostname : List UInt8 := bytesOf "vulcan"

def Tty.initPrompt (t : Tty) : Tty :=
  let t := t.newline
  let t := t.kprintStr defaultUser .lightCyan .black
  let t := t.kprintStr (bytesOf "@") .lightRed .black
  let t := t.kprintStr defaultHostname .lightMagenta .black
  t.kprintStr (bytesOf " #> ") .lightBlue .black

end Vulcanos
