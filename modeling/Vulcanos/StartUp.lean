import Vulcanos.Commands
import Vulcanos.HeapPaging
import Vulcanos.HeapReclaim
import Vulcanos.HeapStack
import Vulcanos.Kernel.KernelMain
import Vulcanos.Terminal

/-!
# The start of the kernel

What `kernel_main` leaves when it comes back, which is when the boot loader has passed what it
checks for: its heap test passes wherever the kernel has been loaded. The timer it sets up runs at
another rate than the one it asks for.
-/

namespace Vulcanos

open Memory Word Layout

/-! ### The rate of the timer -/

namespace Pit

variable {f : Nat}

/-- The count is the divisor's lower two bytes, from whatever was sent to the chip before. -/
theorem initTimer_eq (hf : 0 < f) (p : Pit) : p.initTimer f =
    some { access := 3, mode := 3, bcd := false, low := none, count := 1193180 / f % 65536 } := by
  have hbyte : ∀ n, n &&& 0xFF = n % 256 := fun n => Nat.and_two_pow_sub_one_eq_mod n 8
  have hlow : ∀ n : Nat, (UInt8.ofNat (n % 256)).toNat = n % 256 := fun n =>
    UInt8.toNat_ofNat_of_lt (Nat.mod_lt n (by decide))
  have hcommand : p.outb 0x43 0x36 =
      { p with access := 3, mode := 3, bcd := false, low := none } := rfl
  have hcount : 1193180 / f % 256 + 256 * (1193180 / f / 256 % 256) = 1193180 / f % 65536 := by
    omega
  have hbytes : ∀ a b : UInt8,
      (({ p with access := 3, mode := 3, bcd := false, low := none } : Pit).outb 0x40 a).outb
        0x40 b = ⟨3, 3, false, none, a.toNat + 256 * b.toNat⟩ := fun _ _ => rfl
  rw [initTimer, if_neg (Nat.ne_of_gt hf), hcommand]
  dsimp only
  rw [hbytes, hbyte, hbyte, hlow, hlow, Nat.shiftRight_eq_div_pow, hcount]

/-- **The channel divides by what was asked for** for the frequencies between 19 and its own
clock's, and for no others. -/
theorem initTimer_divisor_iff (hf : 0 < f) (p : Pit) :
    ∃ p', p.initTimer f = some p' ∧ p'.mode = 3 ∧
      (p'.divisor = 1193180 / f ↔ 19 ≤ f ∧ f ≤ 1193180) := by
  refine ⟨_, initTimer_eq hf p, rfl, ?_⟩
  rw [divisor]
  dsimp only
  constructor
  · intro h
    have hlo : 0 < 1193180 / f := by
      split at h <;> omega
    have hhi : 1193180 / f < 65537 := by
      split at h <;> omega
    have hf' : f ≤ 1193180 := (Nat.div_pos_iff.mp hlo).2
    have hmul : 1193180 < 65537 * f := (Nat.div_lt_iff_lt_mul hf).mp hhi
    omega
  · rintro ⟨hlo, hhi⟩
    have hpos : 0 < 1193180 / f := Nat.div_pos hhi hf
    have hlt : 1193180 / f < 65536 := (Nat.div_lt_iff_lt_mul hf).mpr (by omega)
    rw [Nat.mod_eq_of_lt hlt, if_neg (Nat.ne_of_gt hpos)]

/-- The kernel asks for a tick a second. -/
theorem initTimer_divisor_iff_one : ∃ p',
    (⟨0, 0, false, none, 0⟩ : Pit).initTimer 1 = some p' ∧ p'.mode = 3 ∧
      (p'.divisor = 1193180 / 1 ↔ 19 ≤ 1 ∧ 1 ≤ 1193180) :=
  initTimer_divisor_iff Nat.one_pos _

end Pit

/-! ### What is printed -/

namespace Computer

section Prints

variable {c : Computer} {array : Buffer} {format tag msg : String} {ap : List Nat}
  {out : List UInt8} {color : TtyColors}

theorem halt_bind {α β : Type} (a : α) (f : α → Except Halt β) : (Except.ok a >>= f) = f a := rfl

theorem halt_bind_assoc {α β γ : Type} (x : Except Halt α) (f : α → Except Halt β)
    (g : β → Except Halt γ) : (x >>= fun a => f a >>= g) = (x >>= f) >>= g :=
  (bind_assoc x f g).symm

theorem print_print (prints prints' : List Print) (c : Computer) :
    (c.print prints).print prints' = c.print (prints ++ prints') := by
  rw [print, print, print, System.print_print]

theorem printf_of_renders (hnul : 0 ∉ bytesOf format)
    (h : Renders (fun _ => 0) (pieces (bytesOf format)) ap out) (array : Buffer) (c : Computer) :
    ∃ prints, c.printf array format ap = .ok (c.print prints) ∧ textOf prints = out := by
  obtain ⟨q, hcall, hsent, -⟩ := Vulcanos.printf_of_renders hnul h array
  refine ⟨q.prints, ?_, hsent⟩
  rw [printf, literal, hcall]

theorem printf_text (format : String) (hnul : 0 ∉ bytesOf format) (hlit : 0x25 ∉ bytesOf format)
    (array : Buffer) (c : Computer) :
    ∃ prints, c.printf array format [] = .ok (c.print prints) ∧
      textOf prints = bytesOf format := by
  have h : Renders (fun _ => 0) (pieces (bytesOf format ++ [])) [] (bytesOf format ++ []) :=
    .literals hlit .done
  rw [List.append_nil] at h
  exact printf_of_renders hnul h array c

theorem printf_hexLine (format lit : String) {w : Nat}
    (hformat : bytesOf format = bytesOf lit ++ [0x25, 0x78, 0x0A] ++ [])
    (hnul : 0 ∉ bytesOf format) (hlit : 0x25 ∉ bytesOf lit) (hw : w < 4294967296) (array : Buffer)
    (c : Computer) : ∃ prints, c.printf array format [w] = .ok (c.print prints) := by
  have h : Renders (fun _ => 0) (pieces (bytesOf format)) [w]
      (bytesOf lit ++ uitoaText w 16 ++ [0x0A] ++ []) := by
    rw [hformat]
    exact .hexLine hlit hw .done
  obtain ⟨prints, hprints, -⟩ := printf_of_renders hnul h array c
  exact ⟨prints, hprints⟩

theorem printTag_text (tag : String) (color : TtyColors) (array : Buffer) (c : Computer) :
    ∃ prints, c.printTag array tag color = .ok (c.print prints) ∧
      textOf prints = bytesOf ("\n[" ++ tag ++ "]") := by
  obtain ⟨before, hbefore, htext⟩ := printf_text "\n[" (by decide) (by decide) array c
  obtain ⟨behind, hbehind, htext'⟩ := printf_text "]" (by decide) (by decide) array
    ((c.print before).print [inColor tag color])
  refine ⟨before ++ ([inColor tag color] ++ behind), ?_, ?_⟩
  · rw [printTag, hbefore, halt_bind, hbehind, print_print, print_print]
  · calc
      textOf (before ++ ([inColor tag color] ++ behind)) =
          bytesOf "\n[" ++ (bytesOf tag ++ [] ++ bytesOf "]") := by
        rw [textOf_append, textOf_append, htext, htext', textOf_cons, textOf_nil, sent_inColor]
      _ = bytesOf "\n[" ++ bytesOf tag ++ bytesOf "]" := by
        rw [List.append_nil, List.append_assoc]
      _ = bytesOf ("\n[" ++ tag ++ "]") := by
        rw [bytesOf_append, bytesOf_append]

theorem printTag_printf (tag : String) (color : TtyColors) (msg : String)
    (hnul : 0 ∉ bytesOf msg) (hlit : 0x25 ∉ bytesOf msg) (array : Buffer) (c : Computer) :
    ∃ prints, c.printTag array tag color >>= (fun c => c.printf array msg []) =
        .ok (c.print prints) ∧
      textOf prints = bytesOf ("\n[" ++ tag ++ "]" ++ msg) := by
  obtain ⟨before, hbefore, htext⟩ := printTag_text tag color array c
  obtain ⟨behind, hbehind, htext'⟩ := printf_text msg hnul hlit array (c.print before)
  refine ⟨before ++ behind, ?_, ?_⟩
  · rw [hbefore, halt_bind, hbehind, print_print]
  · rw [textOf_append, htext, htext', ← bytesOf_append]

end Prints

/-! ### The test of the heap -/

section HeapTest

variable {c : Computer} {k : Kernel} {prints : List Print} {sizes : List Nat} {a size n fuel : Nat}

/-- The memory manager in another state. -/
def withKernel (k : Kernel) (c : Computer) : Computer := { c with kernel := k }

/-- The heap of `k` is a stack of blocks of these sizes from `a` on, in `room` bytes. -/
structure StackedAt (a room : Nat) (k : Kernel) (sizes : List Nat) : Prop extends
    Stacked k sizes where
  kheap : k.kheap ≠ 0
  startAddress : k.heap.startAddress = a
  endAddress : k.heap.endAddress = a + room

variable {room : Nat}

theorem StackedAt.next {k' : Kernel} {sizes' : List Nat} (h : StackedAt a room k sizes)
    (hstacked : Stacked k' sizes') (hpaging : SamePaging k k') : StackedAt a room k' sizes' :=
  ⟨hstacked, by rw [hpaging.kheap]; exact h.kheap, hpaging.start.trans h.startAddress,
    hpaging.endAddr.trans h.endAddress⟩

theorem StackedAt.kmalloc (h : StackedAt a room k sizes) (fuel size : Nat)
    (hroom : stackSize sizes + size + 40 ≤ room) (c : Computer) (prints : List Print) :
    ∃ k', ((c.withKernel k).print prints).kmalloc (fuel + 1) size =
        .ok (a + stackSize sizes + 12, (c.withKernel k').print prints) ∧
      StackedAt a room k' (size :: sizes) ∧ SamePaging k k' := by
  have hstart := h.startAddress
  have hend := h.endAddress
  obtain ⟨k', halloc, hstacked, hpaging⟩ :=
    h.toStacked.push fuel (show stackSize sizes + size + 40 ≤ _ by omega)
  refine ⟨k', ?_, h.next hstacked hpaging, hpaging⟩
  have hcall : Kernel.kmalloc (Kernel.alloc (fuel + 1)) size k =
      .ok (a + stackSize sizes + 12, none, k') := by
    rw [Kernel.kmalloc, Kernel.kmallocInt, if_pos h.kheap, halloc, hstart]
    rfl
  have hkernel : ((c.withKernel k).print prints).kernel = k := rfl
  rw [Computer.kmalloc, hkernel, hcall]
  rfl

theorem StackedAt.kfree (h : StackedAt a room k (n :: sizes)) (c : Computer)
    (prints : List Print) :
    ∃ k', ((c.withKernel k).print prints).kfree (a + stackSize sizes + 12) =
        .ok ((c.withKernel k').print prints) ∧
      StackedAt a room k' sizes ∧ SamePaging k k' := by
  obtain ⟨k', hfree, hstacked, hpaging⟩ := h.toStacked.pop
  refine ⟨k', ?_, h.next hstacked hpaging, hpaging⟩
  have hkernel : ((c.withKernel k).print prints).kernel = k := rfl
  rw [h.startAddress] at hfree
  rw [Computer.kfree, hkernel, Kernel.kfree, hfree]
  rfl

theorem renders_xy {x y : Nat} (hx : x < 4294967296) (hy : y < 4294967296) :
    Renders (fun _ => 0) (pieces (bytesOf "x: %x, y: %x")) [x, y]
      (bytesOf "x: " ++ (uitoaText x 16 ++ (bytesOf ", y: " ++ (uitoaText y 16 ++ [])))) :=
  .label (bytesOf "x: ") (by decide) hx (.label (bytesOf ", y: ") (by decide) hy .done)

theorem renders_z {z : Nat} (hz : z < 4294967296) :
    Renders (fun _ => 0) (pieces (bytesOf ", z: %x")) [z]
      (bytesOf ", z: " ++ (uitoaText z 16 ++ [])) :=
  .label (bytesOf ", z: ") (by decide) hz .done

/-- What the test prints on a heap that begins at `a`. -/
def testText (a : Nat) : List UInt8 :=
  bytesOf "\n[ ** ]   - Testing heap...\t" ++ bytesOf "x: " ++ uitoaText (a + 12) 16 ++
    bytesOf ", y: " ++ uitoaText (a + 64) 16 ++ bytesOf ", z: " ++ uitoaText (a + 64) 16 ++
    bytesOf "\n[ OK ]   - Heap works!"

/-- **The test passes** on a heap without blocks that has room for them, and leaves it as empty. -/
theorem testHeap_passes (array : Buffer) (h : StackedAt a room k []) (hroom : 124 ≤ room)
    (fuel : Nat) (c : Computer) (prints : List Print) :
    ∃ k' prints', ((c.withKernel k).print prints).testHeap array (fuel + 1) =
        .ok ((c.withKernel k').print (prints ++ prints')) ∧
      textOf prints' = testText a ∧ StackedAt a room k' [] ∧ SamePaging k k' := by
  have hlt : a + room < 4294967296 := h.endAddress ▸ h.sound.end_lt
  have hnone : stackSize [] = 0 := rfl
  have hone : stackSize [32] = 52 := rfl
  have hfirst : a + stackSize [] + 12 = a + 12 := rfl
  have hsecond : a + stackSize [32] + 12 = a + 64 := rfl
  obtain ⟨title, htitle, htext⟩ := printTag_printf " ** " .lightBrown "   - Testing heap...\t"
    (by decide) (by decide) array ((c.withKernel k).print prints)
  obtain ⟨k1, hx, h1, hpaging1⟩ := h.kmalloc fuel 32 (by omega) c (prints ++ title)
  obtain ⟨k2, hy, h2, hpaging2⟩ := h1.kmalloc fuel 32 (by omega) c (prints ++ title)
  obtain ⟨two, htwo, htext'⟩ := printf_of_renders (by decide)
    (renders_xy (x := a + 12) (y := a + 64) (by omega) (by omega)) array
    ((c.withKernel k2).print (prints ++ title))
  obtain ⟨k3, hfree, h3, hpaging3⟩ := h2.kfree c (prints ++ title ++ two)
  obtain ⟨k4, hz, h4, hpaging4⟩ := h3.kmalloc fuel 8 (by omega) c (prints ++ title ++ two)
  obtain ⟨one, honeMore, htext''⟩ := printf_of_renders (by decide)
    (renders_z (z := a + 64) (by omega)) array
    ((c.withKernel k4).print (prints ++ title ++ two))
  obtain ⟨k5, hfreez, h5, hpaging5⟩ := h4.kfree c (prints ++ title ++ two ++ one)
  obtain ⟨k6, hfreex, h6, hpaging6⟩ := h5.kfree c (prints ++ title ++ two ++ one)
  obtain ⟨ok, hok, htextOk⟩ := printTag_printf " OK " .lightGreen "   - Heap works!"
    (by decide) (by decide) array ((c.withKernel k6).print (prints ++ title ++ two ++ one))
  refine ⟨k6, title ++ two ++ one ++ ok, ?_, ?_, h6, ?_⟩
  · rw [hfirst] at hx hfreex
    rw [hsecond] at hy hfree hz hfreez
    rw [testHeap, prtAt, halt_bind_assoc, htitle, halt_bind, print_print, hx, halt_bind]
    dsimp only
    rw [hy, halt_bind]
    dsimp only
    rw [htwo, halt_bind, print_print, hfree, halt_bind, hz, halt_bind]
    dsimp only
    rw [honeMore, halt_bind, print_print, if_neg (not_not.mpr rfl), hfreez, halt_bind, hfreex,
      halt_bind, prtOk, hok, print_print]
    simp only [List.append_assoc]
  · rw [textOf_append, textOf_append, textOf_append, htext, htext', htext'', htextOk]
    simp only [testText, List.append_nil, List.append_assoc]
    rfl
  · exact ((((hpaging1.trans hpaging2).trans hpaging3).trans hpaging4).trans hpaging5).trans
      hpaging6

end HeapTest

/-! ### `kernel_main` -/

/-- The globals as they are loaded, and a kernel that ends between one and 48 MiB. No request is in
service. -/
structure Loaded (c : Computer) : Prop where
  handlers : ∀ n, c.system.interruptHandler n = none
  idle : c.system.Idle
  tick : c.system.tick = 0
  line : c.system.keyboard.Holds []
  kheap : c.kernel.kheap = 0
  aligned : c.kernel.placementAddr % 0x1000 = 0
  placement_ge : 0x100000 ≤ c.kernel.placementAddr
  placement_le : c.kernel.placementAddr ≤ 0x3000000

/-- What is printed before the first prompt. -/
def startText : List UInt8 :=
  bytesOf ("Loading kernel, wait please..." ++ "\n[ OK ]   - Loaded GDT" ++
    "\n[ OK ]   - Loaded IDT" ++ "\n[ OK ]   - Loaded PIT" ++ "\n[ OK ]   - Loaded PS/2 driver" ++
    "\n[ OK ]   - Loaded Paging") ++ testText 0xC0081000

/-- The kernel has started: the handlers are in place with an empty line, so that they work like a
terminal if the console began on the screen, the processor has its tables and the heap is one hole
on the pages that `init_paging` has mapped. -/
structure Started (stubs : Label → BitVec 32) (c c' : Computer) : Prop where
  console : ∃ prints, textOf prints = startText ∧
    c'.system.keyboard.tty = (c.system.keyboard.tty.afterPrints prints).initPrompt
  registered : c'.system.Registered
  idle : c'.system.Idle
  tick : c'.system.tick = 0
  line : c'.system.keyboard.Holds []
  shows : c.system.keyboard.tty.OnScreen →
    Terminal.Shows c'.system ⟨0, [], c'.system.keyboard.tty.page⟩
  gdt : c'.gdt = initGdt
  idt : c'.idt = initIdt stubs
  pics : c'.pics = c.pics.picRemap pic1StartInterrupt pic2StartInterrupt
  divisor : c'.pit.divisor = 13532
  wholeHole : HeapRun.WholeHole ⟨c'.kernel, []⟩
  paging : ∃ k fuel, c.kernel.initPaging fuel = .ok k ∧ SamePaging k c'.kernel

section Start

variable {c : Computer} {magic addr fuel : Nat} {k : Kernel}

theorem checkBoot_of_ok (array : Buffer) (c : Computer) (hmagic : magic = multiboot2BootloaderMagic)
    (haddr : addr % 8 = 0) : c.checkBoot array magic addr = .ok () := by
  have hmask : addr &&& 7 = addr % 8 := Nat.and_two_pow_sub_one_eq_mod addr 3
  rw [checkBoot, if_neg (not_not.mpr hmagic), if_neg (not_not.mpr (hmask.trans haddr))]

theorem checkBoot_of_not (array : Buffer) (c : Computer) (hmagic : magic < 4294967296)
    (haddr : addr < 4294967296) (h : ¬ (magic = multiboot2BootloaderMagic ∧ addr % 8 = 0)) :
    ∃ message, c.checkBoot array magic addr = .error (.stop (.panic message)) := by
  have hmask : addr &&& 7 = addr % 8 := Nat.and_two_pow_sub_one_eq_mod addr 3
  obtain ⟨tag, htag, -⟩ := printTag_text " ERR " .lightRed array c
  by_cases hmagic' : magic = multiboot2BootloaderMagic
  · obtain ⟨prints, hprints⟩ := printf_hexLine "   - Unaligned mbi: %x\n" "   - Unaligned mbi: "
      (by decide) (by decide) (by decide) haddr array (c.print tag)
    refine ⟨"Unaligned multiboot MBI", ?_⟩
    rw [checkBoot, if_neg (not_not.mpr hmagic'),
      if_pos (fun hzero => h ⟨hmagic', hmask.symm.trans hzero⟩), prtEr, htag, halt_bind, hprints,
      halt_bind]
  · obtain ⟨prints, hprints⟩ := printf_hexLine "   - Invalid magic number: %x\n"
      "   - Invalid magic number: " (by decide) (by decide) (by decide) hmagic array (c.print tag)
    refine ⟨"Invalid multiboot magic number", ?_⟩
    rw [checkBoot, if_pos hmagic', prtEr, htag, halt_bind, hprints, halt_bind]

theorem StackedAt.wholeHole {a room : Nat} (h : StackedAt a room k []) :
    HeapRun.WholeHole ⟨k, []⟩ := by
  have hsound := h.sound
  have hchunk := (chunksAt_cons.mp hsound.chunksAt).1
  have hindex := hsound.index
  rw [stackChunks, List.map_nil, List.reverse_nil, List.nil_append, holes_cons, holes_nil,
    if_pos rfl, List.append_nil, List.perm_singleton] at hindex
  exact ⟨hindex, hchunk.header.isHole, hchunk.header.size⟩

theorem gdtSetup_print (prints : List Print) (c : Computer) :
    (c.print prints).gdtSetup = c.gdtSetup.print prints := rfl

theorem idtSetup_print (stubs : Label → BitVec 32) (prints : List Print) (c : Computer) :
    (c.print prints).idtSetup stubs = (c.idtSetup stubs).print prints := rfl

theorem initTimer_print (prints : List Print) (c : Computer) :
    (c.print prints).initTimer 1 =
      .ok (({ c.register irq0 .timerCallback with pit := ⟨3, 3, false, none, 13532⟩ } :
        Computer).print prints) := by
  have hpit : (c.print prints).pit.initTimer 1 = some ⟨3, 3, false, none, 13532⟩ :=
    Pit.initTimer_eq Nat.one_pos _
  rw [initTimer, hpit]
  rfl

theorem initKeyboard_print (prints : List Print) (c : Computer) :
    (c.print prints).initKeyboard = c.initKeyboard.print prints := rfl

theorem initPaging_print (h : c.kernel.initPaging fuel = .ok k) (prints : List Print) :
    (c.print prints).initPaging fuel =
      .ok (((c.register 14 .pageFault).withKernel k).print prints) := by
  have hkernel : (c.print prints).kernel = c.kernel := rfl
  rw [initPaging, hkernel, h]
  rfl

theorem Loaded.stackedAt (h : c.Loaded) (hinit : c.kernel.initPaging fuel = .ok k)
    (hquiet : footerMagic k.mem 0xC0080FF8 ≠ heapMagic) : StackedAt 0xC0081000 0x7F000 k [] := by
  have hbooted : Booted ⟨k, []⟩ :=
    ⟨c.kernel, fuel, h.kheap, h.aligned, h.placement_ge, h.placement_le, hinit, rfl⟩
  obtain ⟨hstart, hend, -⟩ := hbooted.start
  obtain ⟨f, -, hpages⟩ := hbooted.pageInv
  have hkheap := hpages.kheap
  dsimp only at hstart hend hkheap
  have hstacked : Stacked k [] := hbooted.fresh.stacked (by
    dsimp only
    rw [hstart]
    exact hquiet)
  exact ⟨hstacked, hkheap, hstart, hend⟩

/-- **The kernel starts** when the boot loader is the right one and its information is aligned, and
panics otherwise. -/
theorem kernelMain_starts (array : Buffer) (stubs : Label → BitVec 32) (magic addr : Nat)
    (h : c.Loaded) (hfuel : 12400 < fuel)
    (hquiet : ∀ k, c.kernel.initPaging fuel = .ok k → footerMagic k.mem 0xC0080FF8 ≠ heapMagic)
    (hmagic : magic < 4294967296) (haddr : addr < 4294967296) :
    if magic = multiboot2BootloaderMagic ∧ addr % 8 = 0 then
      ∃ c', c.kernelMain array fuel stubs magic addr = .ok c' ∧ Started stubs c c'
    else
      ∃ message, c.kernelMain array fuel stubs magic addr = .error (.stop (.panic message)) := by
  by_cases hboot : magic = multiboot2BootloaderMagic ∧ addr % 8 = 0
  · rw [if_pos hboot]
    obtain ⟨n, k0, -, -, -, hinit⟩ := initPaging_eq h.kheap h.aligned h.placement_ge h.placement_le
    have hinit := hinit fuel hfuel
    obtain ⟨k, hk⟩ : ∃ k, c.kernel.initPaging fuel = .ok k := ⟨_, hinit⟩
    have hheap := h.stackedAt hk (hquiet k hk)
    obtain ⟨fuel', rfl⟩ := Nat.exists_eq_succ_of_ne_zero (Nat.ne_of_gt (Nat.zero_lt_of_lt hfuel))
    obtain ⟨p0, h0, t0⟩ := printf_text "Loading kernel, wait please..." (by decide) (by decide)
      array c
    obtain ⟨p1, h1, t1⟩ := printTag_printf " OK " .lightGreen "   - Loaded GDT" (by decide)
      (by decide) array (c.gdtSetup.print p0)
    obtain ⟨c2, hc2⟩ : ∃ c2, c2 = c.gdtSetup.idtSetup stubs := ⟨_, rfl⟩
    obtain ⟨p2, h2, t2⟩ := printTag_printf " OK " .lightGreen "   - Loaded IDT" (by decide)
      (by decide) array (c2.print (p0 ++ p1))
    obtain ⟨c3, hc3⟩ : ∃ c3, c3 = { c2.register irq0 .timerCallback with
      pit := ⟨3, 3, false, none, 13532⟩ } := ⟨_, rfl⟩
    obtain ⟨p3, h3, t3⟩ := printTag_printf " OK " .lightGreen "   - Loaded PIT" (by decide)
      (by decide) array (c3.print (p0 ++ p1 ++ p2))
    obtain ⟨p4, h4, t4⟩ := printTag_printf " OK " .lightGreen "   - Loaded PS/2 driver" (by decide)
      (by decide) array (c3.initKeyboard.print (p0 ++ p1 ++ p2 ++ p3))
    have hkernel : c3.initKeyboard.kernel.initPaging (fuel' + 1) = .ok k := by
      rw [hc3, hc2]
      exact hk
    obtain ⟨c5, hc5⟩ : ∃ c5, c5 = c3.initKeyboard.register 14 .pageFault := ⟨_, rfl⟩
    obtain ⟨p5, h5, t5⟩ := printTag_printf " OK " .lightGreen "   - Loaded Paging" (by decide)
      (by decide) array ((c5.withKernel k).print (p0 ++ p1 ++ p2 ++ p3 ++ p4))
    obtain ⟨k', p6, htest, t6, hheap', hpaging⟩ := testHeap_passes array hheap (by decide) fuel' c5
      (p0 ++ p1 ++ p2 ++ p3 ++ p4 ++ p5)
    refine ⟨((c5.withKernel k').print (p0 ++ p1 ++ p2 ++ p3 ++ p4 ++ p5 ++ p6)).initPrompt, ?_, ?_⟩
    · rw [kernelMain, checkBoot_of_ok array c hboot.1 hboot.2, halt_bind, h0, halt_bind,
        gdtSetup_print, prtOk, halt_bind_assoc, h1, halt_bind, print_print, idtSetup_print, ← hc2,
        prtOk, halt_bind_assoc, h2, halt_bind, print_print, initTimer_print, ← hc3, halt_bind,
        prtOk, halt_bind_assoc, h3, halt_bind, print_print, initKeyboard_print,
        prtOk, halt_bind_assoc, h4, halt_bind, print_print, initPaging_print hkernel, ← hc5,
        halt_bind, prtOk, halt_bind_assoc, h5, halt_bind, print_print, htest, halt_bind]
    · obtain ⟨all, hall⟩ : ∃ all, all = p0 ++ p1 ++ p2 ++ p3 ++ p4 ++ p5 ++ p6 := ⟨_, rfl⟩
      have htext : textOf all = startText := by
        rw [hall]
        simp only [textOf_append, t0, t1, t2, t3, t4, t5, t6, ← bytesOf_append]
        rfl
      have hregistered := System.registered_initHandlers h.handlers
      have hsystem : ((c5.withKernel k').print all).initPrompt.system =
          { c.system.initHandlers with keyboard := { c.system.keyboard with
            tty := (c.system.keyboard.tty.afterPrints all).initPrompt } } := by
        rw [hc5, hc3, hc2]
        rfl
      rw [← hall]
      have hidle : (((c5.withKernel k').print all).initPrompt).system.Idle := by
        rw [hsystem]
        exact ⟨h.idle.master, h.idle.slave⟩
      have htick : (((c5.withKernel k').print all).initPrompt).system.tick = 0 := by
        rw [hsystem]
        exact h.tick
      have hline : (((c5.withKernel k').print all).initPrompt).system.keyboard.Holds [] := by
        rw [hsystem]
        exact h.line.with_tty _
      have hall' : (((c5.withKernel k').print all).initPrompt).system.Registered := by
        rw [hsystem]
        exact fun n => hregistered n
      refine ⟨⟨all, htext, by rw [hsystem]⟩, hall', hidle, htick, hline, fun hscreen => ?_, ?_, ?_,
        ?_, ?_, hheap'.wholeHole, k, fuel' + 1, hk, hpaging⟩
      · refine ⟨hall', hidle, htick, hline, ?_⟩
        rw [hsystem]
        exact (hscreen.displays.afterPrints all).initPrompt.onScreen.displays
      all_goals
        rw [hc5, hc3, hc2]
        rfl
  · rw [if_neg hboot]
    obtain ⟨message, hcheck⟩ := checkBoot_of_not array c hmagic haddr hboot
    refine ⟨message, ?_⟩
    rw [kernelMain, hcheck]
    rfl

/-- A kernel whose image ends at the first megabyte, before anything has run. -/
def imageComputer : Computer :=
  { system := .bare, kernel := imageKernel, gdt := [], idt := fun _ => ⟨0, 0, 0, ⟨0, 0, 0⟩, 0⟩
    pics := ⟨⟨.ready, 0, 0, 0, 0⟩, ⟨.ready, 0, 0, 0, 0⟩⟩, pit := ⟨3, 3, false, none, 0⟩ }

theorem kernelMain_starts_image : ∃ c', imageComputer.kernelMain ⟨fun _ => 0, []⟩ 12401
    (fun _ => 0) multiboot2BootloaderMagic 0x10000 = .ok c' ∧
      Started (fun _ => 0) imageComputer c' := by
  have hloaded : imageComputer.Loaded := ⟨fun _ => rfl, System.idle_bare, rfl,
    ⟨rfl, fun _ _ => rfl⟩, rfl, rfl, by decide, by decide⟩
  have hchecked : (imageKernel.initPaging 12401).toOption.all
      (fun k => decide (footerMagic k.mem 0xC0080FF8 ≠ heapMagic)) = true := by decide +kernel
  have hquiet : ∀ k, imageComputer.kernel.initPaging 12401 = .ok k →
      footerMagic k.mem 0xC0080FF8 ≠ heapMagic := fun k hk => by
    have hinit : imageKernel.initPaging 12401 = .ok k := hk
    rw [hinit] at hchecked
    exact of_decide_eq_true hchecked
  have hstarts := kernelMain_starts ⟨fun _ => 0, []⟩ (fun _ => 0) multiboot2BootloaderMagic 0x10000
    hloaded (by decide) hquiet (by decide) (by decide)
  rwa [if_pos ⟨rfl, by decide⟩] at hstarts

end Start

end Computer

end Vulcanos
