import Vulcanos.Clock
import Vulcanos.Handlers
import Vulcanos.Numbers
import Vulcanos.Printf

/-!
# What the commands print

The text that each command sends to the console, from the numbers and strings that it finds. All
come back but `reboot`; `fetch` does when the clock answers and the names of the processor are among
those of its two lists, since otherwise it prints a string that was never assigned.
-/

namespace Vulcanos

open Memory Word

/-- The bytes that calls of `kprint_c` send to the console. -/
def textOf (prints : List Print) : List UInt8 := prints.flatMap Print.sent

/-! ### Formats -/

section Formats

variable {m : Mem} {lit rest out : List UInt8} {ap : List Nat} {w : Nat}

@[simp]
theorem textOf_nil : textOf [] = [] := rfl

@[simp]
theorem textOf_cons (x : Print) (prints : List Print) :
    textOf (x :: prints) = x.sent ++ textOf prints := List.flatMap_cons

@[simp]
theorem textOf_append (prints prints' : List Print) :
    textOf (prints ++ prints') = textOf prints ++ textOf prints' := List.flatMap_append

@[simp]
theorem sent_printed (s : List UInt8) (fg bg : TtyColors) : (printed s fg bg).sent = s := by
  refine List.ext_getElem ?_ fun i hi hi' => ?_
  · simp [Print.sent, printed]
  · simp only [Print.sent, printed, List.getElem_map, List.getElem_range]
    exact List.getD_eq_getElem _ _ hi'

@[simp]
theorem sent_inColor (s : String) (fg : TtyColors) : (inColor s fg).sent = bytesOf s :=
  sent_printed (bytesOf s) fg .black

theorem bytesOf_append (s t : String) : bytesOf (s ++ t) = bytesOf s ++ bytesOf t := by
  simp [bytesOf]

theorem Renders.literals (hlit : 0x25 ∉ lit) (h : Renders m (pieces rest) ap out) :
    Renders m (pieces (lit ++ rest)) ap (lit ++ out) := by
  induction lit with
  | nil => exact h
  | cons c lit ih =>
      rw [List.mem_cons, not_or] at hlit
      have hpieces : pieces (c :: lit ++ rest) = .literal c :: pieces (lit ++ rest) := by
        rw [pieces, List.cons_append, piecesFrom, if_neg (Ne.symm hlit.1)]
        rfl
      rw [hpieces]
      exact .literal (ih hlit.2)

theorem Renders.label (lit : List UInt8) (hlit : 0x25 ∉ lit) (hw : w < 4294967296)
    (h : Renders m (pieces rest) ap out) :
    Renders m (pieces (lit ++ ([0x25, 0x78] ++ rest))) (w :: ap)
      (lit ++ (uitoaText w 16 ++ out)) :=
  .literals hlit (.hex hw h)

theorem Renders.hexLine (hlit : 0x25 ∉ lit) (hw : w < 4294967296)
    (h : Renders m (pieces rest) ap out) :
    Renders m (pieces (lit ++ [0x25, 0x78, 0x0A] ++ rest)) (w :: ap)
      (lit ++ uitoaText w 16 ++ [0x0A] ++ out) := by
  rw [List.append_assoc, List.append_assoc, List.append_assoc]
  exact .label lit hlit hw (.literal h)

end Formats

/-! ### The numbers and strings that a command finds -/

def CpuRegisters.shown (r : CpuRegisters) : List (String × Nat) :=
  [("    EAX: ", r.eax), ("    EBX: ", r.ebx), ("    ECX: ", r.ecx), ("    EDX: ", r.edx),
    ("    ESX: ", r.esi), ("    EDI: ", r.edi), ("    EBP: ", r.ebp), ("    ESP: ", r.esp)]

def CpuRegisters.Words (r : CpuRegisters) : Prop := ∀ x ∈ r.shown, x.2 < 4294967296

instance (r : CpuRegisters) : Decidable r.Words :=
  inferInstanceAs (Decidable (∀ x ∈ r.shown, x.2 < 4294967296))

namespace Surroundings

variable (e : Surroundings)

/-- The clock stands still while the command runs: no update is flagged, and the registers hold the
same bytes from its beginning on. -/
structure ClockStands (day month year : UInt8) : Prop where
  fuel : 0 < e.fuel
  flag : ∀ u, e.rtc.instant e.cmos.accesses ≤ u → e.rtc.held u 0x0A &&& 0x80 = 0
  day : ∀ u, e.rtc.instant e.cmos.accesses ≤ u → e.rtc.held u timeRDay = day
  month : ∀ u, e.rtc.instant e.cmos.accesses ≤ u → e.rtc.held u timeRMonth = month
  year : ∀ u, e.rtc.instant e.cmos.accesses ≤ u → e.rtc.held u timeRYear = year

/-- The day, the month and the year that the clock gives, one after the other. -/
def date : Option (Nat × Nat × Nat) := do
  let (day, cmos) ← e.rtc.getTime (e.rightFirst timeRDay) e.fuel timeRDay e.cmos
  let (month, cmos) ← e.rtc.getTime (e.rightFirst timeRMonth) e.fuel timeRMonth cmos
  let (year, _) ← e.rtc.getTime (e.rightFirst timeRYear) e.fuel timeRYear cmos
  some (day, month, year)

/-- The names of the type and the family of an Intel processor. -/
def cpuNames : Option (String × String) :=
  if e.cpu.ebx 0 = intelMagicNumber then do
    let type ← intelTypes.lookup (e.cpu.eax 1 / 4096 % 16)
    let family ← intelFamilies.lookup (e.cpu.eax 1 / 256 % 16)
    some (type, family)
  else none

def dateText (date : Nat × Nat × Nat) : List UInt8 :=
  uitoaText date.1 10 ++ bytesOf "/" ++ uitoaText date.2.1 10 ++ bytesOf "/" ++
    uitoaText date.2.2 10

def fetchText (date : Nat × Nat × Nat) (names : String × String) : List UInt8 :=
  bytesOf "\n __   __   ___  ___    " ++ defaultUser ++ bytesOf "@" ++ defaultHostname ++
    bytesOf "\n \\ \\ / /  / _ \\/ __|   " ++ bytesOf "-----------" ++
    bytesOf "\n  \\ V /  | (_) \\__ \\   " ++ bytesOf "Date: " ++
    dateText date ++
    bytesOf "\n   \\_/    \\___/|___/   " ++
    (bytesOf "CPU type: " ++ bytesOf names.1 ++ bytesOf " (" ++ bytesOf names.2 ++ bytesOf ")") ++
    (bytesOf "\n\t\t\t\t\t   Version: " ++ e.version)

/-- The text of `regs`. -/
def registerText : List UInt8 :=
  bytesOf ("\n===================================\n" ++
      "  BEGIN 32 BITS CPU REGISTER DUMP    \n" ++
      "===================================\n") ++
    e.registers.shown.flatMap (fun x => bytesOf x.1 ++ uitoaText x.2 16 ++ [0x0A]) ++
    bytesOf ("\n==================================\n" ++
      "   END 32 BITS CPU REGISTER DUMP    \n" ++
      "==================================\n")

end Surroundings

/-! ### `printf` and `printf_color` -/

section Prints

variable {m : Mem} {n tick : Nat} {s : List UInt8} {e : Surroundings}

theorem renders_hexLines {xs : List (String × Nat)} (hlabels : ∀ x ∈ xs, 0x25 ∉ bytesOf x.1)
    (hwords : ∀ x ∈ xs, x.2 < 4294967296) :
    Renders m (pieces (xs.flatMap fun x => bytesOf x.1 ++ [0x25, 0x78, 0x0A])) (xs.map Prod.snd)
      (xs.flatMap fun x => bytesOf x.1 ++ uitoaText x.2 16 ++ [0x0A]) := by
  induction xs with
  | nil => exact .done
  | cons x xs ih =>
      rw [List.flatMap_cons, List.flatMap_cons, List.map_cons]
      exact .hexLine (hlabels x List.mem_cons_self) (hwords x List.mem_cons_self)
        (ih (fun y hy => hlabels y (List.mem_cons_of_mem _ hy))
          fun y hy => hwords y (List.mem_cons_of_mem _ hy))

theorem printDecimal_eq (hn : n < 4294967296) (array : Buffer) :
    ∃ prints, printDecimal n array = some prints ∧ textOf prints = uitoaText n 10 := by
  obtain ⟨q, hcall, hsent⟩ := printf_decimal hn (fun _ => 0) array
  refine ⟨q.prints, ?_, hsent⟩
  rw [printDecimal, hcall]
  rfl

theorem printfColor_of_stringAt (h : StringAt m 0 s) (hfits : s.length < 4294967296)
    (fg bg : Nat) : ∃ x, printfColor 0 fg bg m = .ok x ∧ x.sent = s := by
  obtain ⟨y, hkprint, hsent⟩ := kprint_of_stringAt h (by omega)
  have hlen := strlen_of_stringAt h (by omega)
  rw [kprint, hlen, ok_bind] at hkprint
  obtain rfl := Except.ok.inj hkprint
  exact ⟨{ buf := fun i => m (add32 0 i), len := s.length, fg := fg, bg := bg },
    by rw [printfColor, hlen, ok_bind], hsent⟩

theorem timerDump_text (htick : tick < 4294967296) (array : Buffer) :
    ∃ b prints, timerDump tick array = .ok (b, prints) ∧
      textOf prints = bytesOf "\nTicks since boot: " ++ uitoaText tick 10 := by
  obtain ⟨b, hcall, hformatted⟩ := uitoa_formatted (show 1 < 10 by decide) htick array
  have hlength : (uitoaText tick 10).length ≤ 10 :=
    (length_uitoaText_ten_le_iff (by decide)).mpr (Nat.lt_trans htick (by decide))
  obtain ⟨title, htitle, hsent⟩ := printfColor_of_stringAt
    (m := writeBytes 0 (literal "\nTicks since boot: ") fun _ => 0)
    (stringAt_writeBytes (by decide)) (by decide) TtyColors.lightGreen.code TtyColors.black.code
  obtain ⟨number, hnumber, hsent'⟩ := printfColor_of_stringAt
    (hformatted.stringAt (zero_notMem_uitoaText (by decide) (by decide) tick)) (by omega)
    TtyColors.lightCyan.code TtyColors.black.code
  refine ⟨b, [title, number], ?_, ?_⟩
  · rw [timerDump, hcall, ok_bind, htitle, ok_bind, hnumber, ok_bind]
  · rw [textOf_cons, textOf_cons, textOf_nil, hsent, hsent', List.append_nil]

theorem labels_shown (r : CpuRegisters) : ∀ x ∈ r.shown, 0x25 ∉ bytesOf x.1 := by
  have hlabels : ∀ l ∈ ["    EAX: ", "    EBX: ", "    ECX: ", "    EDX: ", "    ESX: ",
      "    EDI: ", "    EBP: ", "    ESP: "], 0x25 ∉ bytesOf l := by decide
  exact fun x hx => hlabels x.1 (List.mem_map_of_mem (f := Prod.fst) hx)

theorem registerDump_text (hwords : e.registers.Words) :
    ∃ prints, registerDump e = some prints ∧ textOf prints = e.registerText := by
  have hformat : bytesOf ("    EAX: %x\n" ++ "    EBX: %x\n" ++ "    ECX: %x\n" ++
      "    EDX: %x\n" ++ "    ESX: %x\n" ++ "    EDI: %x\n" ++ "    EBP: %x\n" ++
      "    ESP: %x\n") =
      e.registers.shown.flatMap fun x => bytesOf x.1 ++ [0x25, 0x78, 0x0A] := by
    have hlabels : e.registers.shown.map Prod.fst = ["    EAX: ", "    EBX: ", "    ECX: ",
      "    EDX: ", "    ESX: ", "    EDI: ", "    EBP: ", "    ESP: "] := rfl
    rw [← List.flatMap_map Prod.fst fun l => bytesOf l ++ [0x25, 0x78, 0x0A], hlabels]
    decide
  have hrenders := renders_hexLines (m := fun _ => 0) (labels_shown e.registers) hwords
  rw [← hformat] at hrenders
  obtain ⟨q, hcall, hsent, -⟩ := printf_of_renders (by decide) hrenders e.array
  have hargs : e.registers.shown.map Prod.snd = [e.registers.eax, e.registers.ebx, e.registers.ecx,
    e.registers.edx, e.registers.esi, e.registers.edi, e.registers.ebp, e.registers.esp] := rfl
  rw [hargs, ← literal] at hcall
  refine ⟨_, by rw [registerDump, hcall]; rfl, ?_⟩
  rw [textOf_append, textOf_append, textOf_cons, textOf_cons, textOf_nil, sent_inColor,
    sent_inColor, List.append_nil, List.append_nil]
  have htext : textOf q.prints = q.sent := rfl
  rw [htext, hsent]
  rfl

end Prints

/-! ### `fetch` -/

section Fetch

variable {r : Rtc} {s s' : Cmos} {rightFirst : Bool} {fuel field v : Nat} {e : Surroundings}

theorem Rtc.getTime_lt (h : r.getTime rightFirst fuel field s = some (v, s')) : v < 166 := by
  obtain ⟨s1, -, hread⟩ := Option.bind_eq_some_iff.mp h
  rw [Rtc.bcdConverter_eq, Option.some.injEq, Prod.mk.injEq] at hread
  obtain ⟨rfl, -⟩ := hread
  have hhigh := (r.seen (field % 256) (if rightFirst then s1.accesses + 3
    else s1.accesses + 1)).toNat_lt
  omega

/-- A register that does not change is read as it is. -/
theorem Rtc.getTime_of_still {b : UInt8} (rightFirst : Bool) (field : Nat) (s : Cmos)
    (hfuel : 0 < fuel)
    (hflag : ∀ u, r.instant s.accesses ≤ u → r.held u 0x0A &&& 0x80 = 0)
    (hb : ∀ u, r.instant s.accesses ≤ u → r.held u (field % 256) = b) :
    r.getTime rightFirst fuel field s = some (decimal b, ⟨s.accesses + 6, field % 256⟩) := by
  obtain ⟨fuel, rfl⟩ : ∃ n, fuel = n + 1 := ⟨fuel - 1, by omega⟩
  have hseen : ∀ n, s.accesses ≤ n → r.seen (field % 256) n = b := fun n hn =>
    hb _ (r.forward.monotone hn)
  have hwait : r.waitUpdated (fuel + 1) s = some ⟨s.accesses + 2, 0x0A⟩ := by
    rw [Rtc.waitUpdated]
    exact if_neg (not_not.mpr (hflag _ (r.forward.monotone (Nat.le_succ s.accesses))))
  rw [Rtc.getTime, hwait, Option.bind_eq_bind, Option.bind_some, Rtc.bcdConverter_eq]
  dsimp only
  rw [hseen _ (by split <;> omega), hseen _ (by split <;> omega)]
  rfl

theorem Surroundings.ClockStands.date {day month year : UInt8}
    (h : e.ClockStands day month year) :
    e.date = some (decimal day, decimal month, decimal year) := by
  have hlater : ∀ n u, e.rtc.instant (e.cmos.accesses + n) ≤ u →
      e.rtc.instant e.cmos.accesses ≤ u := fun n u hu =>
    Nat.le_trans (e.rtc.forward.monotone (Nat.le_add_right e.cmos.accesses n)) hu
  have hday := Rtc.getTime_of_still (e.rightFirst timeRDay) timeRDay e.cmos h.fuel h.flag h.day
  have hmonth := Rtc.getTime_of_still (e.rightFirst timeRMonth) timeRMonth
    ⟨e.cmos.accesses + 6, timeRDay⟩ h.fuel (fun u hu => h.flag u (hlater 6 u hu))
    fun u hu => h.month u (hlater 6 u hu)
  have hyear := Rtc.getTime_of_still (e.rightFirst timeRYear) timeRYear
    ⟨e.cmos.accesses + 12, timeRMonth⟩ h.fuel (fun u hu => h.flag u (hlater 12 u hu))
    fun u hu => h.year u (hlater 12 u hu)
  simp only [Surroundings.date, Option.bind_eq_bind]
  rw [hday, Option.bind_some]
  dsimp only [timeRDay, timeRMonth, timeRYear] at hmonth hyear ⊢
  rw [hmonth, Option.bind_some]
  dsimp only
  rw [hyear, Option.bind_some]

/-- A field of the clock that is read and printed, and what comes after it. -/
theorem map_textOf_field {next : Nat × Cmos → List Print → Option (List Print)}
    {text : Nat × Cmos → Option (List UInt8)}
    (h : ∀ x p, textOf p = uitoaText x.1 10 → (next x p).map textOf = text x) (field : Nat)
    (c : Cmos) :
    ((e.rtc.getTime (e.rightFirst field) e.fuel field c).bind fun x =>
      (printDecimal x.1 e.array).bind fun p => next x p).map textOf =
    (e.rtc.getTime (e.rightFirst field) e.fuel field c).bind text := by
  cases hread : e.rtc.getTime (e.rightFirst field) e.fuel field c with
  | none => rfl
  | some x =>
      obtain ⟨prints, hprints, htext⟩ := printDecimal_eq
        (Nat.lt_trans (Rtc.getTime_lt hread) (by decide)) e.array
      rw [Option.bind_some, hprints, Option.bind_some]
      exact h x prints htext

theorem map_textOf_getDate : (getDate e).map textOf = e.date.map Surroundings.dateText := by
  have hread : getDate e =
      (e.rtc.getTime (e.rightFirst timeRDay) e.fuel timeRDay e.cmos).bind fun x =>
        (printDecimal x.1 e.array).bind fun day =>
      (e.rtc.getTime (e.rightFirst timeRMonth) e.fuel timeRMonth x.2).bind fun x =>
        (printDecimal x.1 e.array).bind fun month =>
      (e.rtc.getTime (e.rightFirst timeRYear) e.fuel timeRYear x.2).bind fun x =>
        (printDecimal x.1 e.array).bind fun year =>
      some (day ++ [inColor "/" .lightBlue] ++ month ++ [inColor "/" .lightBlue] ++ year) := rfl
  have hdate : e.date.map Surroundings.dateText =
      (e.rtc.getTime (e.rightFirst timeRDay) e.fuel timeRDay e.cmos).bind fun day =>
        (e.rtc.getTime (e.rightFirst timeRMonth) e.fuel timeRMonth day.2).bind fun month =>
          (e.rtc.getTime (e.rightFirst timeRYear) e.fuel timeRYear month.2).bind fun year =>
            some (Surroundings.dateText (day.1, month.1, year.1)) := by
    rw [Surroundings.date]
    simp only [Option.bind_eq_bind, Option.map_bind, Function.comp_def, Option.map_some]
  rw [hread, hdate]
  refine map_textOf_field (fun day p hday => ?_) timeRDay e.cmos
  refine map_textOf_field (fun month q hmonth => ?_) timeRMonth day.2
  refine map_textOf_field (fun year r hyear => ?_) timeRYear month.2
  rw [Option.map_some, Option.some.injEq]
  simp only [textOf_append, textOf_cons, textOf_nil, sent_inColor, hday, hmonth, hyear,
    List.append_nil]
  rfl

/-- The strings are assigned for an Intel processor whose type and family are in the lists. -/
theorem cpuNames_eq : (e.cpu.getCpuType.bind fun type => e.cpu.getCpuFamily.map fun family =>
    (type, family)) = e.cpuNames.map fun names => (bytesOf names.1, bytesOf names.2) := by
  have hbits : ∀ i, e.cpu.eax 1 >>> i &&& 0xF = e.cpu.eax 1 / 2 ^ i % 16 := fun i => by
    rw [Nat.shiftRight_eq_div_pow]
    exact Nat.and_two_pow_sub_one_eq_mod _ 4
  rw [Surroundings.cpuNames, Cpu.getCpuType, Cpu.getCpuFamily, Cpu.detectCpu]
  by_cases hintel : e.cpu.ebx 0 = intelMagicNumber
  · have hbrand : e.cpu.intelCpu.brand = intelMagicNumber := rfl
    rw [if_pos hintel, if_pos hintel, getCpuid, hbrand, if_neg (by decide), if_pos rfl]
    simp only [switchOn, Cpu.intelCpu, hbits, Option.bind_some]
    norm_num
    cases intelTypes.lookup (e.cpu.eax 1 / 4096 % 16) with
    | none => rfl
    | some type =>
        cases intelFamilies.lookup (e.cpu.eax 1 / 256 % 16) with
        | none => rfl
        | some family => rfl
  · rw [if_neg hintel, if_neg hintel]
    split <;> rfl

theorem map_textOf_showCpuid : (showCpuid e).map textOf = e.cpuNames.map fun names =>
    bytesOf "CPU type: " ++ bytesOf names.1 ++ bytesOf " (" ++ bytesOf names.2 ++ bytesOf ")" := by
  have hshow : showCpuid e = (e.cpu.getCpuType.bind fun type => e.cpu.getCpuFamily.map
      fun family => (type, family)).map fun names =>
        [inColor "CPU type: " .lightCyan, printed names.1 .white .black, inColor " (" .white,
          printed names.2 .white .black, printByte 0x29] := by
    rw [showCpuid]
    cases e.cpu.getCpuType with
    | none => rfl
    | some type => cases e.cpu.getCpuFamily <;> rfl
  rw [hshow, cpuNames_eq, Option.map_map, Option.map_map]
  congr 1
  funext names
  simp only [Function.comp_apply, textOf_cons, textOf_nil, sent_inColor, sent_printed,
    sent_printByte, List.append_nil, List.append_assoc]
  rfl

theorem map_textOf_systemFetcher : (systemFetcher e).map textOf =
    e.date.bind fun date => e.cpuNames.map fun names => e.fetchText date names := by
  have hfetch : (systemFetcher e).map textOf =
      ((getDate e).map textOf).bind fun date => ((showCpuid e).map textOf).map fun names =>
        bytesOf "\n __   __   ___  ___    " ++ defaultUser ++ bytesOf "@" ++ defaultHostname ++
          bytesOf "\n \\ \\ / /  / _ \\/ __|   " ++ bytesOf "-----------" ++
          bytesOf "\n  \\ V /  | (_) \\__ \\   " ++ bytesOf "Date: " ++ date ++
          bytesOf "\n   \\_/    \\___/|___/   " ++ names ++
          (bytesOf "\n\t\t\t\t\t   Version: " ++ e.version) := by
    rw [systemFetcher]
    cases getDate e with
    | none => rfl
    | some date =>
        cases showCpuid e with
        | none => rfl
        | some names =>
            dsimp only [Option.bind_eq_bind, Option.bind_some, Option.map_some]
            simp only [getVersion, textOf_append, textOf_cons, textOf_nil, sent_inColor,
              sent_printed, List.append_nil, List.append_assoc]
  rw [hfetch, map_textOf_getDate, map_textOf_showCpuid]
  cases e.date with
  | none => rfl
  | some date => cases e.cpuNames <;> rfl

end Fetch

/-! ### Every command -/

/-- The text of a command, if it comes back. -/
def commandText (behind : Nat → List UInt8) (tick : Nat) (date : Nat × Nat × Nat)
    (e : Surroundings) : ShellCommand → Option (List UInt8)
  | .helper => some (bytesOf ("\nList of available commands:\n" ++
      "\nhelp        - Print this helper" ++ "\nint         - Test some interrupts" ++
      "\nclear, cls  - Clear the screen" ++ "\nregs        - Prints register dump" ++
      "\ntimer       - Prints timer tick" ++ "\nabout       - About this kernel" ++
      "\nreboot      - Reboot the system" ++ "\n"))
  | .testInterrupts => some ([0, 4, 1].flatMap fun n =>
      bytesOf "\nReceived interrupt: " ++ System.messageOf behind n)
  | .clearPrompt => some []
  | .about => some (aboutPicture.flatMap fun x => bytesOf x.1)
  | .registerDump => some e.registerText
  | .timerDump => some (bytesOf "\nTicks since boot: " ++ uitoaText tick 10)
  | .systemFetcher => e.cpuNames.map fun names => e.fetchText date names
  | .emptyLine => some (bytesOf "\n")
  | .notFound => some (bytesOf "\nCommand not found!\n")
  | .reboot => none

section Results

variable {behind : Nat → List UInt8} {tick : Nat} {e : Surroundings}

theorem textOf_puts (s : String) : textOf (puts s) = bytesOf (s ++ "\n") := by
  calc
    textOf (puts s) = bytesOf s ++ ([0x0A] ++ []) := by
      rw [puts, textOf_cons, textOf_cons, textOf_nil, sent_inColor, sent_printByte]
    _ = bytesOf s ++ bytesOf "\n" := rfl
    _ = bytesOf (s ++ "\n") := (bytesOf_append s "\n").symm

theorem textOf_about : textOf about = aboutPicture.flatMap fun x => bytesOf x.1 := by
  rw [about, textOf, List.flatMap_map]
  exact List.flatMap_congr fun x _ => sent_inColor x.1 x.2

theorem textOf_report (n : Nat) : textOf (System.report behind n) =
    bytesOf "\nReceived interrupt: " ++ System.messageOf behind n := by
  calc
    textOf (System.report behind n) =
        bytesOf "\nReceived interrupt: " ++ (System.messageOf behind n ++ []) := by
      rw [System.report, textOf_cons, textOf_cons, textOf_nil, sent_inColor, sent_printed]
    _ = bytesOf "\nReceived interrupt: " ++ System.messageOf behind n := by
      rw [List.append_nil]

/-- **The text of every command**: from the ticks, the registers, the clock and the processor. A
command prints it when it comes back, and has none when it does not. `timer` has room for seven
digits, and `fetch` finds a clock that stands still. -/
theorem map_textOf_commandPrints (behind : Nat → List UInt8) (c : ShellCommand)
    {d m y : UInt8} (htick : c = .timerDump → tick < 10000000)
    (hwords : c = .registerDump → e.registers.Words)
    (hclock : c = .systemFetcher → e.ClockStands d m y) :
    (System.commandPrints behind tick e c).map textOf =
      commandText behind tick (decimal d, decimal m, decimal y) e c := by
  cases c with
  | helper => exact congrArg some (textOf_puts _)
  | testInterrupts =>
      rw [System.commandPrints, Option.map_some, textOf_append, textOf_append, textOf_report,
        textOf_report, textOf_report, List.append_assoc]
      simp only [commandText, List.flatMap_cons, List.flatMap_nil, List.append_nil]
  | clearPrompt => rfl
  | about => exact congrArg some textOf_about
  | registerDump =>
      obtain ⟨prints, hcall, htext⟩ := registerDump_text (hwords rfl)
      exact (congrArg (Option.map textOf) hcall).trans (congrArg some htext)
  | timerDump =>
      obtain ⟨b, prints, hcall, htext⟩ :=
        timerDump_text (Nat.lt_trans (htick rfl) (by decide)) e.array
      have hprints : System.commandPrints behind tick e .timerDump =
          (timerDump tick e.array).toOption.map (·.2) := rfl
      rw [hprints, hcall]
      exact congrArg some htext
  | systemFetcher =>
      have htext := map_textOf_systemFetcher (e := e)
      rw [(hclock rfl).date, Option.bind_some] at htext
      exact htext
  | emptyLine => exact congrArg some (textOf_puts _)
  | notFound => exact congrArg some (textOf_puts _)
  | reboot => rfl

/-- A Pentium 4 whose clock stands at the 24th of December 2021. -/
def christmas : Surroundings :=
  { (Interrupt.raised 33 28).around with
    cpu := ⟨fun _ => 0xF00, fun _ => intelMagicNumber⟩
    rtc :=
      { held := fun _ reg => if reg = timeRDay then 0x24 else if reg = timeRMonth then 0x12
          else if reg = timeRYear then 0x21 else 0
        instant := id
        forward := strictMono_id } }

theorem map_textOf_commandPrints_christmas :
    (System.commandPrints (fun _ => []) 10 christmas .systemFetcher).map textOf =
        some (christmas.fetchText (24, 12, 21) ("Original OEM", "Pentium 4")) ∧
      (System.commandPrints (fun _ => []) 10 christmas .timerDump).map textOf =
        some (bytesOf "\nTicks since boot: " ++ uitoaText 10 10) :=
  ⟨map_textOf_commandPrints (d := 0x24) (m := 0x12) (y := 0x21) (fun _ => []) .systemFetcher
      (fun h => by cases h) (fun h => by cases h) fun _ => ⟨by decide,
        fun _ _ => (by decide : (0 : UInt8) &&& 0x80 = 0), fun _ _ => rfl, fun _ _ => rfl,
        fun _ _ => rfl⟩,
    map_textOf_commandPrints (d := 0) (m := 0) (y := 0) (fun _ => []) .timerDump
      (fun _ => by decide) (fun h => by cases h) fun h => by cases h⟩

end Results

/-! ### `reboot` -/

/-- The ports that a round reads: the data port too, when the status says that a byte waits. -/
def roundReads (status : Nat → UInt8) (i : Nat) : List Nat :=
  if status i &&& 1 ≠ 0 then [0x64, 0x60] else [0x64]

section Reboot

variable {status : Nat → UInt8} {fuel i : Nat} {ports reads : List Nat}

theorem rebootLoop_succ : rebootLoop status (fuel + 1) i reads =
    if status i &&& 2 ≠ 0 then
      rebootLoop status fuel (i + 1) ((roundReads status i).reverse ++ reads)
    else some ((roundReads status i).reverse ++ reads) := by
  have hreads : (if status i &&& 1 ≠ 0 then 0x60 :: 0x64 :: reads else 0x64 :: reads) =
      (roundReads status i).reverse ++ reads := by
    rw [roundReads]
    split <;> rfl
  rw [← hreads]
  rfl

theorem rebootLoop_iff : rebootLoop status fuel i reads = some ports ↔
    ∃ n < fuel, status (i + n) &&& 2 = 0 ∧ (∀ j < n, status (i + j) &&& 2 ≠ 0) ∧
      ports.reverse = reads.reverse ++ (List.range' i (n + 1)).flatMap (roundReads status) := by
  induction fuel generalizing i reads with
  | zero => exact ⟨nofun, fun ⟨n, hn, _⟩ => absurd hn (Nat.not_lt_zero n)⟩
  | succ fuel ih =>
      have hfirst : (List.range' i 1).flatMap (roundReads status) = roundReads status i :=
        List.append_nil _
      rw [rebootLoop_succ]
      by_cases hfull : status i &&& 2 ≠ 0
      · rw [if_pos hfull, ih, List.reverse_append, List.reverse_reverse]
        constructor
        · rintro ⟨n, hn, hempty, hbefore, hports⟩
          refine ⟨n + 1, by omega, by rwa [Nat.add_assoc, Nat.add_comm 1] at hempty,
            fun j hj => ?_, ?_⟩
          · cases j with
            | zero => exact hfull
            | succ j =>
                have hj := hbefore j (by omega)
                rwa [Nat.add_assoc, Nat.add_comm 1] at hj
          · rw [hports, List.append_assoc, List.range'_succ (n := n + 1), List.flatMap_cons]
        · rintro ⟨n, hn, hempty, hbefore, hports⟩
          cases n with
          | zero => exact absurd hempty hfull
          | succ n =>
              refine ⟨n, by omega, by rwa [Nat.add_assoc, Nat.add_comm 1],
                fun j hj => ?_, ?_⟩
              · rw [Nat.add_assoc, Nat.add_comm 1]
                exact hbefore (j + 1) (by omega)
              · rw [hports, List.append_assoc, List.range'_succ (n := n + 1), List.flatMap_cons]
      · rw [if_neg hfull, Option.some.injEq]
        constructor
        · rintro rfl
          refine ⟨0, Nat.succ_pos fuel, not_not.mp hfull, nofun, ?_⟩
          rw [List.reverse_append, List.reverse_reverse, hfirst]
        · rintro ⟨n, -, -, hbefore, hports⟩
          cases n with
          | zero =>
              rw [hfirst] at hports
              rw [← List.reverse_reverse ports, hports, List.reverse_append, List.reverse_reverse]
          | succ n => exact absurd (hbefore 0 (Nat.succ_pos n)) hfull

theorem rebootLoop_zero_iff : rebootLoop status fuel 0 [] = some ports ↔
    ∃ n < fuel, status n &&& 2 = 0 ∧ (∀ j < n, status j &&& 2 ≠ 0) ∧
      ports.reverse = (List.range (n + 1)).flatMap (roundReads status) := by
  rw [rebootLoop_iff]
  simp only [Nat.zero_add, List.reverse_nil, List.nil_append, List.range_eq_range']

theorem processCommand_eq_reset_iff {cmd : List UInt8} (hcmd : ShellCommand.select cmd = .reboot)
    (int : Nat → System → Except Halt System) (e : Surroundings) (s : System) :
    System.processCommand int e cmd s = .error .reset ↔
      ∃ ports, rebootLoop e.status e.fuel 0 [] = some ports := by
  rw [System.processCommand, hcmd]
  dsimp only
  cases rebootLoop e.status e.fuel 0 [] with
  | none => exact iff_of_false (by simp) (by simp)
  | some ports => exact iff_of_true rfl ⟨ports, rfl⟩

/-- **`reboot`** resets the processor when the controller can take the command for it within the
rounds that there are. It reads the byte of the keyboard in every round in which one waits. -/
theorem processCommand_reboot {cmd : List UInt8} (hcmd : ShellCommand.select cmd = .reboot)
    (int : Nat → System → Except Halt System) (e : Surroundings) (s : System) :
    (System.processCommand int e cmd s = .error .reset ↔ ∃ n < e.fuel, e.status n &&& 2 = 0) ∧
      ∀ ports, rebootLoop e.status e.fuel 0 [] = some ports →
        ∃ n < e.fuel, e.status n &&& 2 = 0 ∧ (∀ j < n, e.status j &&& 2 ≠ 0) ∧
          ports.reverse = (List.range (n + 1)).flatMap (roundReads e.status) := by
  refine ⟨(processCommand_eq_reset_iff hcmd int e s).trans ⟨?_, fun h => ?_⟩,
    fun ports h => rebootLoop_zero_iff.mp h⟩
  · rintro ⟨ports, hports⟩
    obtain ⟨n, hn, hempty, -⟩ := rebootLoop_zero_iff.mp hports
    exact ⟨n, hn, hempty⟩
  · obtain ⟨hn, hempty⟩ := Nat.find_spec h
    have hbefore : ∀ j < Nat.find h, e.status j &&& 2 ≠ 0 := fun j hj hclear =>
      Nat.find_min h hj ⟨Nat.lt_trans hj hn, hclear⟩
    exact ⟨((List.range (Nat.find h + 1)).flatMap (roundReads e.status)).reverse,
      rebootLoop_zero_iff.mpr ⟨Nat.find h, hn, hempty, hbefore, List.reverse_reverse _⟩⟩

/-- A controller that is busy for one round, with a byte of the keyboard. -/
theorem processCommand_reboot_busy :
    let e := { (Interrupt.raised 33 28).around with
      status := fun n => if n = 0 then 3 else 0
      fuel := 2 }
    (System.processCommand (fun _ => .ok) e (bytesOf "reboot" ++ [0]) .bare = .error .reset ↔
        ∃ n < 2, e.status n &&& 2 = 0) ∧
      ∀ ports, rebootLoop e.status 2 0 [] = some ports →
        ∃ n < 2, e.status n &&& 2 = 0 ∧ (∀ j < n, e.status j &&& 2 ≠ 0) ∧
          ports.reverse = (List.range (n + 1)).flatMap (roundReads e.status) :=
  processCommand_reboot (ShellCommand.select_name (List.mem_singleton_self "reboot") []) _ _ _

end Reboot

end Vulcanos
