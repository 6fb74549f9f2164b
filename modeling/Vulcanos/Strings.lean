import Vulcanos.Directory
import Vulcanos.Kernel.Shell

/-!
# Comparing and moving bytes

`strcmp` orders strings as their bytes, and what is looked up with it is found by its whole name or
not at all. `memmove` copies upwards only, so bytes that are moved up onto themselves are lost.
-/

namespace Vulcanos

open Memory Word

/-! ### `strcmp` and what is looked up with it -/

section Lookup

variable {s t cmd : List UInt8} {g : Initrd} {m : Mem} {names : Nat → List UInt8}
  {name node n i : Nat}

theorem strcmp_literal_iff (hs : 0 ∉ s) (rest : List UInt8) {x : String} (hx : 0 ∉ bytesOf x) :
    strcmp (s ++ 0 :: rest) (literal x) = some 0 ↔ s = bytesOf x := by
  obtain ⟨d, hcompares, hstrcmp⟩ := strcmp_nul hs hx
  rw [literal, hstrcmp rest [], Option.some.injEq]
  exact hcompares.2.1

namespace ShellCommand

theorem zero_notMem_names {c : ShellCommand} : ∀ x ∈ c.names, 0 ∉ bytesOf x := by
  cases c <;> decide

theorem select_name {c : ShellCommand} {x : String} (hx : x ∈ c.names) (rest : List UInt8) :
    select (bytesOf x ++ 0 :: rest) = c := by
  cases c with
  | clearPrompt =>
      rcases List.mem_pair.mp hx with rfl | rfl
      · rfl
      · rfl
  | notFound => exact absurd hx List.not_mem_nil
  | _ =>
      obtain rfl := List.mem_singleton.mp hx
      rfl

/-- The command is the last choice, or one of its names has been compared with the line. -/
def Compared (cmd : List UInt8) (c : ShellCommand) : Prop :=
  c = .notFound ∨ ∃ x ∈ c.names, strcmp cmd (literal x) = some 0

theorem Compared.head {cmd : List UInt8} {c : ShellCommand} {x : String} {xs : List String}
    (hnames : c.names = x :: xs) (h : strcmp cmd (literal x) = some 0) : Compared cmd c :=
  Or.inr ⟨x, hnames ▸ List.mem_cons_self, h⟩

theorem compared_select (cmd : List UInt8) : Compared cmd (select cmd) := by
  unfold select
  refine iteInduction (motive := Compared cmd) (Compared.head rfl) fun _ => ?_
  refine iteInduction (motive := Compared cmd) (Compared.head rfl) fun _ => ?_
  refine iteInduction (motive := Compared cmd) (fun h => ?_) fun _ => ?_
  · rcases h with hclear | hcls
    · exact Compared.head rfl hclear
    · exact Or.inr ⟨"cls", List.mem_cons_of_mem _ (List.mem_singleton_self _), hcls⟩
  refine iteInduction (motive := Compared cmd) (Compared.head rfl) fun _ => ?_
  refine iteInduction (motive := Compared cmd) (Compared.head rfl) fun _ => ?_
  refine iteInduction (motive := Compared cmd) (Compared.head rfl) fun _ => ?_
  refine iteInduction (motive := Compared cmd) (Compared.head rfl) fun _ => ?_
  refine iteInduction (motive := Compared cmd) (Compared.head rfl) fun _ => ?_
  exact iteInduction (motive := Compared cmd) (Compared.head rfl) fun _ => Or.inl rfl

/-- **A command runs for its names only.** What lies behind the NUL of the line does not count. -/
theorem select_iff (hs : 0 ∉ s) (rest : List UInt8) {c : ShellCommand} (hc : c ≠ .notFound) :
    select (s ++ 0 :: rest) = c ↔ ∃ x ∈ c.names, s = bytesOf x := by
  constructor
  · rintro rfl
    rcases compared_select (s ++ 0 :: rest) with hnone | ⟨x, hx, hcmp⟩
    · exact absurd hnone hc
    · exact ⟨x, hx, (strcmp_literal_iff hs rest (zero_notMem_names x hx)).mp hcmp⟩
  · rintro ⟨x, hx, rfl⟩
    exact select_name hx rest

end ShellCommand

/-- The driver calls the shell with its line, and the console shows what the command does to it. -/
theorem processCommand_eq (hs : 0 ∉ s) (rest : List UInt8) (prints : List Print) (t : Tty) :
    processCommand (s ++ 0 :: rest) prints t =
      if ShellCommand.select (s ++ 0 :: rest) = .clearPrompt then t.clearPrompt
      else prints.foldl (fun t p => t.kprintC p.buf p.len p.fg p.bg) t := by
  refine if_congr ?_ rfl rfl
  rw [strcmp_literal_iff hs rest (by decide), strcmp_literal_iff hs rest (by decide),
    ShellCommand.select_iff hs rest (by decide)]
  simp [ShellCommand.names]

/-! ### `initrd_finddir` -/

/-- The entry that a name selects: `dev` in the root, else the first file of that name, else none.
-/
def Selected (g : Initrd) (node : Nat) (names : Nat → List UInt8) (s : List UInt8) (p : Nat) :
    Prop :=
  if node = g.initrdRoot ∧ s = bytesOf "dev" then p = g.initrdDev
  else (∃ i, i < g.nrootNodes ∧ names i = s ∧ (∀ j, j < i → names j ≠ s) ∧ p = g.rootNode i) ∨
    (∀ i, i < g.nrootNodes → names i ≠ s) ∧ p = 0

def Named (g : Initrd) (names : Nat → List UInt8) (m : Mem) : Prop :=
  ∀ i, i < g.nrootNodes →
    StringAt m (g.rootNode i) (names i) ∧ g.rootNode i + (names i).length < 4294967296

theorem finddirLoop_selected (hname : StringAt m name s) (hfits : name + s.length < 4294967296)
    (hnames : Named g names m) (hn : i + n = g.nrootNodes) (hbefore : ∀ j, j < i → names j ≠ s) :
    ∃ p, finddirLoop g name m n i = .ok p ∧
      ((∃ j, j < g.nrootNodes ∧ names j = s ∧ (∀ l, l < j → names l ≠ s) ∧ p = g.rootNode j) ∨
        (∀ j, j < g.nrootNodes → names j ≠ s) ∧ p = 0) := by
  induction n generalizing i with
  | zero =>
      refine ⟨0, rfl, Or.inr ⟨fun j hj => hbefore j ?_, rfl⟩⟩
      omega
  | succ n ih =>
      have hi : i < g.nrootNodes := by omega
      obtain ⟨hnode, hend⟩ := hnames i hi
      obtain ⟨d, hcmp, hcompares⟩ := strcmpAt_of_stringAt hname hnode hfits hend
      rw [finddirLoop, hcmp, ok_bind]
      by_cases hd : d = 0
      · rw [if_pos hd]
        exact ⟨_, rfl, Or.inl ⟨i, hi, (hcompares.2.1.mp hd).symm, hbefore, rfl⟩⟩
      · rw [if_neg hd]
        refine ih (by omega) fun j hj => ?_
        rcases Nat.lt_succ_iff_lt_or_eq.mp hj with hlt | rfl
        · exact hbefore j hlt
        · exact fun heq => hd (hcompares.2.1.mpr heq.symm)

/-- **`initrd_finddir`** returns the entry of that name, or none. -/
theorem initrdFinddir_selected (hname : StringAt m name s)
    (hfits : name + s.length < 4294967296) (hnames : Named g names m) (node : Nat) :
    ∃ p, initrdFinddir g node name m = .ok p ∧ Selected g node names s p := by
  have hdev : node = g.initrdRoot ∧ strcmp (fourBytes m name) (literal "dev") = some 0 ↔
      node = g.initrdRoot ∧ s = bytesOf "dev" :=
    and_congr_right fun _ => strcmp_dev_of_stringAt hname hfits
  unfold initrdFinddir Selected
  rw [if_congr hdev rfl rfl]
  split
  · exact ⟨_, rfl, rfl⟩
  · exact finddirLoop_selected hname hfits hnames (Nat.zero_add _) fun j hj =>
      absurd hj (Nat.not_lt_zero j)

/-- **`strcmp` orders strings**, in as many steps as it takes to find a difference or a NUL, and a
command or a file is found by exactly its name. -/
theorem strcmp_ordered (hs : 0 ∉ s) (ht : 0 ∉ t) :
    (∃ d, Compares d s t ∧ (∀ u v, strcmp (s ++ 0 :: u) (t ++ 0 :: v) = some d) ∧
      ∀ m a b, StringAt m a s → StringAt m b t → a + s.length < 4294967296 →
        b + t.length < 4294967296 → strcmpAt a b m = .ok d) ∧
    (∀ rest c, c ≠ ShellCommand.notFound →
      (ShellCommand.select (s ++ 0 :: rest) = c ↔ ∃ x ∈ c.names, s = bytesOf x)) ∧
    ∀ g m names name, StringAt m name s → name + s.length < 4294967296 → Named g names m →
      ∀ node, ∃ p, initrdFinddir g node name m = .ok p ∧ Selected g node names s p := by
  obtain ⟨d, hcompares, hstrcmp⟩ := strcmp_nul hs ht
  refine ⟨⟨d, hcompares, hstrcmp, fun m a b hsm htm ha hb => ?_⟩,
    fun rest c hc => ShellCommand.select_iff hs rest hc,
    fun g m names name hname hfits hnames node =>
      initrdFinddir_selected hname hfits hnames node⟩
  obtain ⟨d', hloop, hsome⟩ := strcmpLoop_of_stringAt (i := 0) hsm htm ha hb
    (show s.length < addressSpace by unfold addressSpace; omega)
  obtain rfl := Option.some.inj (hsome.symm.trans (hstrcmp [] []))
  exact hloop

/-- `cls` comes before the two bytes `c` and 0xFF: bytes have no sign. It is the name of a command.
-/
theorem strcmp_ordered_cls :
    (∃ d, strcmp (literal "cls") [0x63, 0xFF, 0] = some d ∧ d < 0) ∧
      ShellCommand.select (literal "cls") = .clearPrompt := by
  obtain ⟨⟨d, hcompares, hstrcmp, -⟩, hselect, -⟩ :=
    strcmp_ordered (s := bytesOf "cls") (t := [0x63, 0xFF]) (by decide) (by decide)
  exact ⟨⟨d, hstrcmp [] [], hcompares.1.mpr (by decide)⟩,
    (hselect [] .clearPrompt (by decide)).mpr ⟨"cls", by decide, rfl⟩⟩

end Lookup

/-! ### `memmove` -/

section Move

variable {dst src len : Nat} {m : Mem}

/-- The bytes have been moved, and no other byte has changed. -/
def Moved (dst src len : Nat) (m m' : Mem) : Prop :=
  (∀ j, j < len → m' (dst + j) = m (src + j)) ∧ SameOutside dst (dst + len) m m'

theorem memmove_inside (hdst : dst + len ≤ 4294967296) (hsrc : src + len ≤ 4294967296) {j : Nat}
    (hj : j < len) :
    memmove dst src len m (dst + j) = m (src + if src < dst then j % (dst - src) else j) := by
  rw [memmove_eq_memcpy hdst hsrc, memcpy_apply hdst hsrc, if_pos (by omega),
    Nat.add_sub_cancel_left]

theorem memmove_outside (hdst : dst + len ≤ 4294967296) (hsrc : src + len ≤ 4294967296) :
    SameOutside dst (dst + len) m (memmove dst src len m) := by
  intro x hx
  rw [memmove_eq_memcpy hdst hsrc, memcpy_apply hdst hsrc, if_neg (by omega)]

/-- **`memmove`** moves bytes down, or to where they do not overlap, and nothing else, unless the
bytes repeat with the distance they are moved by. -/
theorem memmove_moved_iff (hdst : dst + len ≤ 4294967296) (hsrc : src + len ≤ 4294967296) :
    Moved dst src len m (memmove dst src len m) ↔
      ¬ (src < dst ∧ dst < src + len) ∨ ∀ j, j < len → m (src + j) = m (src + j % (dst - src)) := by
  constructor
  · rintro ⟨hmoved, -⟩
    refine or_iff_not_imp_left.mpr fun hover j hj => ?_
    obtain ⟨hup, -⟩ := not_not.mp hover
    calc m (src + j) = memmove dst src len m (dst + j) := (hmoved j hj).symm
      _ = m (src + j % (dst - src)) := by rw [memmove_inside hdst hsrc hj, if_pos hup]
  · intro hcond
    refine ⟨fun j hj => ?_, memmove_outside hdst hsrc⟩
    rw [memmove_inside hdst hsrc hj]
    split
    · rename_i hup
      rcases hcond with hapart | hperiod
      · rw [Nat.mod_eq_of_lt (by omega)]
      · exact (hperiod j hj).symm
    · rfl

/-- `scroll` moves the rows down in memory. -/
theorem memmove_moved_scroll :
    Moved 0xB8000 0xB80A0 7840 (fun x => UInt8.ofNat x)
      (memmove 0xB8000 0xB80A0 7840 fun x => UInt8.ofNat x) :=
  (memmove_moved_iff (by decide) (by decide)).mpr (Or.inl (by decide))

/-- Two bytes, moved up by one. -/
theorem not_moved_up :
    ¬ Moved 1 0 2 (fun x => UInt8.ofNat x) (memmove 1 0 2 fun x => UInt8.ofNat x) := by
  rintro ⟨hmoved, -⟩
  exact absurd (hmoved 1 (by decide)) (by decide)

end Move

end Vulcanos
