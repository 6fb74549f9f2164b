import Vulcanos.Kernel.Isr
import Vulcanos.Library.Simulation
import Vulcanos.Library.Volume
import Vulcanos.Proof.FileNodes
import Vulcanos.Reading

/-!
# The file system

Everything a caller can do with the nodes of a ramdisk through `fs.h`, in any order and with other
code at work in between. What is answered depends on the image alone: the callbacks read it, and
write to nothing but the caller's buffer and the static `dirent`.
-/

namespace Vulcanos

open Memory Word Volume Simulation

/-! ### The image as a volume -/

/-- A file of an image: its name and where its contents lie. -/
structure ImageFile where
  name : List UInt8
  start : Nat
  contents : List UInt8

/-- The bytes from an address on. -/
def window (m : Mem) (a n : Nat) : List UInt8 := (List.range n).map fun j => m (a + j)

def imageFile (m : Mem) (loc i : Nat) : ImageFile :=
  let start := add32 (read32 m (headerAddr loc i + headerOffset)) loc
  ⟨fileName m loc i, start, window m start (read32 m (headerAddr loc i + headerLength))⟩

def imageFiles (m : Mem) (loc n : Nat) : List ImageFile := (List.range n).map (imageFile m loc)

def ImageFile.entry (f : ImageFile) (i : Nat) : Entry (List UInt8) UInt8 :=
  ⟨f.name, i, some f.contents⟩

/-- The root directory: `dev`, and the files behind it. -/
def volumeOf (files : List ImageFile) : List (Entry (List UInt8) UInt8) :=
  ⟨bytesOf "dev", 0, none⟩ :: files.mapIdx fun i f => f.entry i

/-- The memory that a ramdisk needs: the table of headers, the root node, the nodes of the files and
their contents. -/
def needed (g : Initrd) (loc : Nat) (files : List ImageFile) : List (Nat × Nat) :=
  (loc, 4 + 76 * files.length) :: (g.initrdRoot, sizeofFsNode) ::
    (g.rootNodes, 184 * files.length) :: files.map fun f => (f.start, f.contents.length)

/-! ### The calls -/

/-- What calls leave behind: the register with the value that is returned, and memory. -/
structure Caller where
  eax : Nat
  mem : Mem

/-- A call through `fs.h` on one of the nodes, or a store of other code. -/
inductive FsCall where
  | read (node : Handle) (offset size buffer : Nat)
  | write (node : Handle) (offset size buffer : Nat)
  | opens (node : Handle)
  | closes (node : Handle)
  | readdir (node : Handle) (index : Nat)
  | finddir (node : Handle) (name : List UInt8) (a : Nat)
  | store (a byte : Nat)

/-- The address of a node. -/
def Initrd.nodeOf (g : Initrd) : Handle → Nat
  | .root => g.initrdRoot
  | .entry 0 => g.initrdDev
  | .entry (i + 1) => g.rootNode i

/-- The node at an address. -/
def Initrd.handleAt (g : Initrd) (a : Nat) : Option Handle :=
  if a = 0 then none
  else if a = g.initrdRoot then some .root
  else if a = g.initrdDev then some (.entry 0)
  else some (.entry ((a - g.rootNodes) / sizeofFsNode + 1))

namespace FsCall

def request : FsCall → Request (List UInt8)
  | .read h offset size _ => .read h offset size
  | .write h offset size _ => .write h offset size
  | .opens h => .opens h
  | .closes h => .closes h
  | .readdir h index => .readdir h index
  | .finddir h name _ => .finddir h name
  | .store _ _ => .other

section Step

-- what `write`, `open` and `close` pointers lead to
variable (syms : Symbols) (g : Initrd) (writeCode : Nat → Option WriteType)
  (openCode : Nat → Option OpenType)

/-- A pointer to code that is not the ramdisk's. -/
def known {α : Type} : Option α → Except Halt α
  | some a => .ok a
  | none => .error .undefined

def step (c : FsCall) (s : Caller) : Except Halt Caller :=
  match c with
  | .read h offset size buffer => do
      let (n, m) ← known (readFs (readCode syms g) (g.nodeOf h) offset size buffer s.mem)
      .ok ⟨n, m⟩
  | .write h offset size buffer => do
      let (n, m) ← known (writeFs writeCode (g.nodeOf h) offset size buffer s.mem)
      .ok ⟨n, m⟩
  | .opens h => do
      let m ← known (openFs openCode (g.nodeOf h) s.mem)
      .ok { s with mem := m }
  | .closes h => do
      let m ← known (closeFs openCode (g.nodeOf h) s.mem)
      .ok { s with mem := m }
  | .readdir h index => do
      match ← known (readdirFs (readdirCode syms g) (g.nodeOf h) index s.mem) with
      | .ok (e, m) => .ok ⟨e, m⟩
      | .error stop => .error (.stop stop)
  | .finddir h _ a => do
      match ← known (finddirFs (finddirCode syms g) (g.nodeOf h) a s.mem) with
      | .ok node => .ok { s with eax := node }
      | .error stop => .error (.stop stop)
  | .store a byte => .ok { s with mem := write8 s.mem a byte }

/-- What a caller sees of a call that has returned. -/
def answer (c : FsCall) (s' : Caller) : Answer (List UInt8) UInt8 :=
  match c with
  | .read _ _ _ buffer => .bytes (window s'.mem buffer s'.eax)
  | .write _ _ _ _ => .count s'.eax
  | .readdir _ _ => .entry <|
      if s'.eax = 0 then none
      else some (textIn s'.mem s'.eax direntIno, read32 s'.mem (s'.eax + direntIno))
  | .finddir _ _ _ => .node (g.handleAt s'.eax)
  | .opens _ | .closes _ | .store _ _ => .done

end Step

/-- The node has been initialised: it is not that of `dev`. -/
def Held (n : Nat) : Handle → Prop
  | .root => True
  | .entry k => 0 < k ∧ k ≤ n

def Apart (used : List (Nat × Nat)) (a len : Nat) : Prop :=
  ∀ u ∈ used, u.1 + u.2 ≤ a ∨ a + len ≤ u.1

/-- What is asked of the caller, for a ramdisk of `n` files: the end of a read is below `2 ^ 32`,
the buffer and all stores are apart from what the ramdisk needs, an index is not one of those that
pass the bound of the list without a file, and a name is a string. -/
def Lawful (syms : Symbols) (n : Nat) (used : List (Nat × Nat)) (c : FsCall) (s : Caller) : Prop :=
  match c with
  | .read h offset size buffer =>
      Held n h ∧ offset + size < 4294967296 ∧ buffer + size ≤ 4294967296 ∧ Apart used buffer size
  | .write h _ _ _ => Held n h
  | .opens h => Held n h
  | .closes h => Held n h
  | .readdir h index =>
      Held n h ∧ index < 4294967296 ∧ (h = .root → index ≤ n ∨ syms.rootNodes < index)
  | .finddir h name a => Held n h ∧ StringAt s.mem a name ∧ a + name.length < 4294967296
  | .store a _ => Apart used a 1

end FsCall

/-! ### What the calls keep -/

/-- Memory holds a ramdisk with these files. -/
structure Serving (syms : Symbols) (g : Initrd) (loc : Nat) (files : List ImageFile) (m : Mem) :
    Prop where
  mounted : Mounted syms g (files.map ImageFile.name) m
  rootNull : ∀ off ∈ [fsRead, fsWrite, fsOpen, fsClose], read32 m (g.initrdRoot + off) = 0
  fileNull : NullUpTo g.rootNodes files.length m
  offset : ∀ i f, files[i]? = some f → read32 m (headerAddr loc i + headerOffset) = f.start
  length : ∀ i f, files[i]? = some f →
    read32 m (headerAddr loc i + headerLength) = f.contents.length
  contents : ∀ f ∈ files, f.contents = window m f.start f.contents.length

/-- The addresses of a ramdisk: the table of headers and the contents are in the address space, the
nodes are different ones and `dirent` is apart from all that is needed. -/
structure Situated (syms : Symbols) (g : Initrd) (loc : Nat) (files : List ImageFile) : Prop where
  fileHeaders : ∀ i, i < files.length → g.fileHeader i = headerAddr loc i
  fits : ∀ f ∈ files, f.start + f.contents.length ≤ 4294967296
  dirent : FsCall.Apart (needed g loc files) syms.dirent sizeofDirent
  dev_pos : 0 < g.initrdDev
  root_pos : 0 < g.initrdRoot
  dev_root : g.initrdDev ≠ g.initrdRoot
  nodes_root : ∀ i, i < files.length → g.rootNodes + 184 * i ≠ g.initrdRoot
  nodes_dev : ∀ i, i < files.length → g.rootNodes + 184 * i ≠ g.initrdDev

/-- What the ramdisk needs is the same in both memories. -/
def Untouched (used : List (Nat × Nat)) (m m' : Mem) : Prop :=
  ∀ u ∈ used, SameOn u.1 (u.1 + u.2) m m'

section Untouched

variable {used : List (Nat × Nat)} {m m' m'' : Mem} {a len : Nat}

theorem Untouched.refl (used : List (Nat × Nat)) (m : Mem) : Untouched used m m :=
  fun _ _ _ _ _ => rfl

theorem Untouched.of_sameOutside (hapart : FsCall.Apart used a len)
    (h : SameOutside a (a + len) m m') : Untouched used m m' :=
  fun u hu => h.sameOn (hapart u hu)

end Untouched

section Serving

variable {syms : Symbols} {g : Initrd} {loc : Nat} {files : List ImageFile} {m m' : Mem}

theorem window_congr {a n : Nat} (h : SameOn a (a + n) m m') : window m' a n = window m a n :=
  List.map_congr_left fun j hj => h (a + j) (Nat.le_add_right a j)
    (Nat.add_lt_add_left (List.mem_range.mp hj) a)

theorem length_window (m : Mem) (a n : Nat) : (window m a n).length = n := by
  rw [window, List.length_map, List.length_range]

theorem Mounted.of_kept {names : List (List UInt8)} (h : Mounted syms g names m)
    (hroot : SameOn g.initrdRoot (g.initrdRoot + 184) m m')
    (hnodes : SameOn g.rootNodes (g.rootNodes + 184 * names.length) m m') :
    Mounted syms g names m' := by
  refine ⟨h.root.congr (by decide) hroot, h.count, fun i s hs => ?_, h.short, h.nodes_fit,
    h.nodes_pos, h.root_apart, h.nodes_apart⟩
  obtain ⟨hi, -⟩ := List.getElem?_eq_some_iff.mp hs
  obtain ⟨len, hfile⟩ := h.files i s hs
  have hshort := h.short_of hs
  exact ⟨len, hfile.congr (by omega) (hnodes.mono (by omega) (by omega))⟩

theorem Serving.of_kept (h : Serving syms g loc files m)
    (hkept : Untouched (needed g loc files) m m') : Serving syms g loc files m' := by
  have htable : SameOn loc (loc + (4 + 76 * files.length)) m m' := hkept _ List.mem_cons_self
  have hroot : SameOn g.initrdRoot (g.initrdRoot + 184) m m' :=
    hkept (g.initrdRoot, sizeofFsNode) (List.mem_cons_of_mem _ List.mem_cons_self)
  have hnodes : SameOn g.rootNodes (g.rootNodes + 184 * files.length) m m' :=
    hkept (g.rootNodes, 184 * files.length)
      (List.mem_cons_of_mem _ (List.mem_cons_of_mem _ List.mem_cons_self))
  have hheader : ∀ i f off, files[i]? = some f → off + 4 ≤ 76 →
      read32 m' (headerAddr loc i + off) = read32 m (headerAddr loc i + off) := by
    intro i f off hf hoff
    obtain ⟨hi, -⟩ := List.getElem?_eq_some_iff.mp hf
    refine htable.read32 ?_ ?_ <;> unfold headerAddr <;> omega
  refine ⟨h.mounted.of_kept hroot ?_, fun off hoff => ?_, fun i hi off hoff => ?_,
    fun i f hf => ?_, fun i f hf => ?_, fun f hf => ?_⟩
  · rwa [List.length_map]
  · have hin : off + 4 ≤ 184 := by
      simp only [List.mem_cons, List.not_mem_nil, or_false] at hoff
      rcases hoff with rfl | rfl | rfl | rfl <;> decide
    rw [hroot.read32 (Nat.le_add_right _ _) (by omega)]
    exact h.rootNull off hoff
  · have hin : off + 4 ≤ 184 := by
      simp only [List.mem_cons, List.not_mem_nil, or_false] at hoff
      rcases hoff with rfl | rfl | rfl <;> decide
    rw [hnodes.read32 (by omega) (by omega)]
    exact h.fileNull i hi off hoff
  · rw [hheader i f headerOffset hf (by decide)]
    exact h.offset i f hf
  · rw [hheader i f headerLength hf (by decide)]
    exact h.length i f hf
  · rw [window_congr]
    · exact h.contents f hf
    · exact hkept (f.start, f.contents.length) (List.mem_cons_of_mem _ (List.mem_cons_of_mem _
        (List.mem_cons_of_mem _ (List.mem_map_of_mem hf))))

theorem Serving.fileIn (h : Serving syms g loc files m) (hplaced : Situated syms g loc files)
    {i : Nat} {f : ImageFile} (hf : files[i]? = some f) :
    FileIn syms g (g.rootNodes + 184 * i) f.start f.contents.length m := by
  obtain ⟨hi, -⟩ := List.getElem?_eq_some_iff.mp hf
  have hname : (files.map ImageFile.name)[i]? = some f.name := by
    rw [List.getElem?_map, hf]
    rfl
  obtain ⟨len, hfile⟩ := h.mounted.files i f.name hname
  refine ⟨hfile.read, ?_, ?_, hplaced.fits f (List.mem_of_getElem? hf)⟩
  · rw [hfile.inode, hplaced.fileHeaders i hi]
    exact h.offset i f hf
  · rw [hfile.inode, hplaced.fileHeaders i hi]
    exact h.length i f hf

theorem FileIn.read_apart {node start len offset size buffer : Nat}
    (h : FileIn syms g node start len m) (hsum : offset + size < 4294967296)
    (hfits : buffer + size ≤ 4294967296)
    (hapart : start + len ≤ buffer ∨ buffer + size ≤ start) :
    ∃ m', initrdRead g node offset size buffer m = (min size (len - offset), m') ∧
      SameOutside buffer (buffer + size) m m' ∧
      ∀ j, j < min size (len - offset) → m' (buffer + j) = m (start + (offset + j)) := by
  have hend := h.fits
  rcases Nat.lt_or_ge len offset with hbehind | hinside
  · have hnone : min size (len - offset) = 0 := by omega
    rw [hnone, h.initrdRead_eq, if_pos hbehind]
    exact ⟨m, rfl, SameOutside.refl _ _ _, fun j hj => absurd hj (Nat.not_lt_zero j)⟩
  · have hdst : buffer + min size (len - offset) ≤ 4294967296 := by omega
    have hsrc : start + offset + min size (len - offset) ≤ 4294967296 := by omega
    refine ⟨_, h.initrdRead_of_noWrap buffer hinside hsum, fun x hx => ?_, fun j hj => ?_⟩
    · rw [memcpy_apply hdst hsrc, if_neg (by omega)]
    · rw [← Nat.add_assoc]
      refine (memcpy_exact_iff hdst hsrc).mpr ?_ j hj
      rcases Nat.lt_or_ge (start + offset) buffer with hlt | hle
      · refine Or.inr fun l hl => ?_
        rw [Nat.mod_eq_of_lt (by omega)]
      · exact Or.inl hle

end Serving

/-! ### One call -/

/-- The call returns, answers as the volume does and leaves alone what the ramdisk needs. -/
def FsCall.Answered (syms : Symbols) (g : Initrd) (writeCode : Nat → Option WriteType)
    (openCode : Nat → Option OpenType) (loc : Nat) (files : List ImageFile) (c : FsCall)
    (s : Caller) : Prop :=
  ∃ s', c.step syms g writeCode openCode s = .ok s' ∧
    c.answer g s' = respond (volumeOf files) c.request ∧
    Untouched (needed g loc files) s.mem s'.mem

section Calls

variable {syms : Symbols} {g : Initrd} {writeCode : Nat → Option WriteType}
  {openCode : Nat → Option OpenType} {loc : Nat} {files : List ImageFile} {s : Caller}
  {node : Handle} {offset size buffer index a i : Nat} {name : List UInt8} {f : ImageFile}

theorem volumeOf_succ (files : List ImageFile) (i : Nat) :
    (volumeOf files)[i + 1]? = files[i]?.map fun f => f.entry i := by
  rw [volumeOf, List.getElem?_cons_succ, List.getElem?_mapIdx]

theorem contentsOf_file (hf : files[i]? = some f) :
    contentsOf (volumeOf files) (.entry (i + 1)) = f.contents := by
  rw [contentsOf, volumeOf_succ, hf]
  rfl

theorem FsCall.Held.cases (h : FsCall.Held files.length node) :
    node = .root ∨ ∃ i f, node = .entry (i + 1) ∧ files[i]? = some f := by
  cases node with
  | root => exact Or.inl rfl
  | entry k =>
      obtain ⟨hpos, hle⟩ := h
      obtain ⟨i, rfl⟩ := Nat.exists_eq_succ_of_ne_zero (Nat.ne_of_gt hpos)
      exact Or.inr ⟨i, files[i], rfl, List.getElem?_eq_getElem hle⟩

namespace Serving

theorem nodeOf_file {m : Mem} (h : Serving syms g loc files m) (hf : files[i]? = some f) :
    g.nodeOf (.entry (i + 1)) = g.rootNodes + 184 * i := by
  have hname : (files.map ImageFile.name)[i]? = some f.name := by
    rw [List.getElem?_map, hf]
    rfl
  exact (h.mounted.rootNode_eq hname).1

theorem fileNode {m : Mem} (h : Serving syms g loc files m) (hf : files[i]? = some f) :
    ∃ len, FileNode syms f.name len i (g.rootNodes + 184 * i) m := by
  refine h.mounted.files i f.name ?_
  rw [List.getElem?_map, hf]
  rfl

theorem null {m : Mem} (h : Serving syms g loc files m) (hheld : FsCall.Held files.length node)
    {off : Nat} (hoff : off ∈ [fsWrite, fsOpen, fsClose]) : read32 m (g.nodeOf node + off) = 0 := by
  rcases hheld.cases with rfl | ⟨i, f, rfl, hf⟩
  · exact h.rootNull off (List.mem_cons_of_mem _ hoff)
  · obtain ⟨hi, -⟩ := List.getElem?_eq_some_iff.mp hf
    rw [h.nodeOf_file hf]
    exact h.fileNull i hi off hoff

theorem not_directory {m : Mem} (h : Serving syms g loc files m) (hf : files[i]? = some f) :
    read32 m (g.nodeOf (.entry (i + 1)) + fsFlags) &&& 0x7 ≠ fsDirectory := by
  obtain ⟨len, hnode⟩ := h.fileNode hf
  rw [h.nodeOf_file hf, hnode.flags]
  decide

theorem answered_read (h : Serving syms g loc files s.mem) (hplaced : Situated syms g loc files)
    (hlawful : (FsCall.read node offset size buffer).Lawful syms files.length
      (needed g loc files) s) :
    (FsCall.read node offset size buffer).Answered syms g writeCode openCode loc files s := by
  obtain ⟨hheld, hsum, hfits, hapart⟩ := hlawful
  rcases hheld.cases with rfl | ⟨i, f, rfl, hf⟩
  · have hread : readFs (readCode syms g) g.initrdRoot offset size buffer s.mem =
        some (0, s.mem) := by
      rw [readFs, h.rootNull fsRead List.mem_cons_self, if_neg (not_not.mpr rfl)]
    refine ⟨⟨0, s.mem⟩, ?_, ?_, Untouched.refl _ _⟩
    · simp only [FsCall.step, Initrd.nodeOf, hread]
      rfl
    · rw [FsCall.request, respond, contentsOf, slice_nil]
      rfl
  · have hfile := h.fileIn hplaced hf
    have hread := hfile.readFs_eq offset size buffer
    have hcontents := contentsOf_file hf
    have hbytes := h.contents f (List.mem_of_getElem? hf)
    have hslice : slice f.contents offset size =
        (List.range (min size (f.contents.length - offset))).map
          fun j => s.mem (f.start + (offset + j)) := by
      calc
        slice f.contents offset size =
            slice (window s.mem f.start f.contents.length) offset size :=
          congrArg (fun bytes => slice bytes offset size) hbytes
        _ = _ := slice_map_range _ _ _ _
    have hin : (f.start, f.contents.length) ∈ needed g loc files :=
      List.mem_cons_of_mem _ (List.mem_cons_of_mem _ (List.mem_cons_of_mem _
        (List.mem_map_of_mem (List.mem_of_getElem? hf))))
    obtain ⟨m', hcopy, hframe, hcopied⟩ := hfile.read_apart hsum hfits (hapart _ hin)
    refine ⟨⟨min size (f.contents.length - offset), m'⟩, ?_, ?_,
      Untouched.of_sameOutside hapart hframe⟩
    · simp only [FsCall.step, h.nodeOf_file hf, hread, hcopy]
      rfl
    · rw [FsCall.request, respond, hcontents, hslice]
      refine congrArg Answer.bytes (List.map_congr_left fun j hj => ?_)
      exact hcopied j (List.mem_range.mp hj)

theorem answered_write (h : Serving syms g loc files s.mem)
    (hheld : FsCall.Held files.length node) :
    (FsCall.write node offset size buffer).Answered syms g writeCode openCode loc files s := by
  have hwrite : writeFs writeCode (g.nodeOf node) offset size buffer s.mem = some (0, s.mem) := by
    rw [writeFs, h.null hheld List.mem_cons_self, if_neg (not_not.mpr rfl)]
  refine ⟨⟨0, s.mem⟩, ?_, rfl, Untouched.refl _ _⟩
  simp only [FsCall.step, hwrite]
  rfl

theorem answered_opens (h : Serving syms g loc files s.mem)
    (hheld : FsCall.Held files.length node) :
    (FsCall.opens node).Answered syms g writeCode openCode loc files s := by
  have hopens : openFs openCode (g.nodeOf node) s.mem = some s.mem := by
    rw [openFs, h.null hheld (List.mem_cons_of_mem _ List.mem_cons_self), if_neg (not_not.mpr rfl)]
  refine ⟨s, ?_, rfl, Untouched.refl _ _⟩
  simp only [FsCall.step, hopens]
  rfl

theorem answered_closes (h : Serving syms g loc files s.mem)
    (hheld : FsCall.Held files.length node) :
    (FsCall.closes node).Answered syms g writeCode openCode loc files s := by
  have hcloses : closeFs openCode (g.nodeOf node) s.mem = some s.mem := by
    rw [closeFs, h.null hheld (by decide), if_neg (not_not.mpr rfl)]
  refine ⟨s, ?_, rfl, Untouched.refl _ _⟩
  simp only [FsCall.step, hcloses]
  rfl

/-! #### Listing -/

theorem listing_eq_volumeOf (files : List ImageFile) (index : Nat) :
    listing (files.map ImageFile.name) index =
      (volumeOf files)[index]?.map fun e => (e.name, e.ino) := by
  cases index with
  | zero => rfl
  | succ i =>
      rw [listing, volumeOf_succ, List.getElem?_map, Option.map_map, Option.map_map]
      rfl

theorem length_le_of_listing {names : List (List UInt8)} {ino : Nat}
    (hshort : ∀ s ∈ names, s.length ≤ 64) (h : listing names index = some (name, ino)) :
    name.length ≤ 64 := by
  cases index with
  | zero =>
      obtain ⟨rfl, -⟩ := Prod.mk.inj (Option.some.inj h)
      decide
  | succ i =>
      obtain ⟨s, hs, hpair⟩ := Option.map_eq_some_iff.mp h
      obtain ⟨rfl, -⟩ := Prod.mk.inj hpair
      exact hshort s (List.mem_of_getElem? hs)

theorem textIn_of_stringAt {m : Mem} {n : Nat} (h : StringAt m a name) (hlen : name.length ≤ n) :
    textIn m a n = name :=
  (stringAt_textIn ⟨name.length, hlen, h.nul⟩).unique h

theorem answered_readdir (h : Serving syms g loc files s.mem) (hplaced : Situated syms g loc files)
    (hn : files.length < syms.rootNodes)
    (hlawful : (FsCall.readdir node index).Lawful syms files.length (needed g loc files) s) :
    (FsCall.readdir node index).Answered syms g writeCode openCode loc files s := by
  obtain ⟨hheld, hlt, hindex⟩ := hlawful
  have hcount : (files.map ImageFile.name).length = files.length := List.length_map _
  rcases hheld.cases with rfl | ⟨i, f, rfl, hf⟩
  · have hroot := h.mounted.readdirFs_eq index
    rcases hindex rfl with hle | hbeyond
    · obtain ⟨m', hlist, hframe, name, ino, hentry, hname, hino⟩ :=
        h.mounted.answers (show index ≤ syms.rootNodes by omega) (by omega)
      have hpos := syms.dirent_lt.1
      have hlen := length_le_of_listing h.mounted.short hentry
      refine ⟨⟨syms.dirent, m'⟩, ?_, ?_, Untouched.of_sameOutside hplaced.dirent hframe⟩
      · simp only [FsCall.step, Initrd.nodeOf, hroot, hlist]
        rfl
      · rw [FsCall.request, respond, ← listing_eq_volumeOf, hentry, FsCall.answer,
          if_neg (Nat.ne_of_gt hpos), textIn_of_stringAt hname (by unfold direntIno; omega), hino]
    · refine ⟨⟨0, s.mem⟩, ?_, ?_, Untouched.refl _ _⟩
      · simp only [FsCall.step, Initrd.nodeOf, hroot, initrdReaddir_beyond hlt hbeyond]
        rfl
      · rw [FsCall.request, respond, ← listing_eq_volumeOf, listing_eq_none (by omega)]
        rfl
  · have hfile : readdirFs (readdirCode syms g) (g.nodeOf (.entry (i + 1))) index s.mem =
        some (.ok (0, s.mem)) := by
      rw [readdirFs, if_neg fun hdir => h.not_directory hf hdir.1]
    refine ⟨⟨0, s.mem⟩, ?_, rfl, Untouched.refl _ _⟩
    simp only [FsCall.step, hfile]
    rfl

/-! #### Finding -/

theorem finddirLoop_findIdx {m : Mem} {names rest : List (List UInt8)} {j : Nat}
    (h : Mounted syms g names m) (hname : StringAt m a name) (hfits : a + name.length < 4294967296)
    (hrest : names.drop j = rest) :
    finddirLoop g a m rest.length j =
      .ok (match rest.findIdx? fun t => t = name with
        | some i => g.rootNodes + 184 * (j + i)
        | none => 0) := by
  induction rest generalizing j with
  | nil => rfl
  | cons t rest ih =>
      have ht : names[j]? = some t := by
        rw [← List.head?_drop, hrest]
        rfl
      have hdrop : names.drop (j + 1) = rest := by
        rw [← List.tail_drop, hrest]
        rfl
      obtain ⟨hnode, hfit⟩ := h.rootNode_eq ht
      obtain ⟨len, hfile⟩ := h.files j t ht
      have hshort := h.short_of ht
      obtain ⟨diff, hcmp, hdiff⟩ := strcmpAt_of_stringAt hname hfile.name hfits (by omega)
      rw [List.length_cons, finddirLoop, hnode, hcmp, ok_bind, List.findIdx?_cons]
      by_cases hsame : name = t
      · rw [if_pos (hdiff.2.1.mpr hsame), if_pos (decide_eq_true hsame.symm)]
        rfl
      · rw [if_neg fun hzero => hsame (hdiff.2.1.mp hzero), ih hdrop,
          if_neg fun heq => hsame (of_decide_eq_true heq).symm]
        cases rest.findIdx? fun t => t = name with
        | none => rfl
        | some i =>
            simp only [Option.map_some]
            congr 2
            omega

theorem findIdx?_volumeOf (files : List ImageFile) (name : List UInt8) :
    (volumeOf files).findIdx? (fun e => e.name = name) =
      if name = bytesOf "dev" then some 0
      else ((files.map ImageFile.name).findIdx? fun t => t = name).map (· + 1) := by
  have hnames : (files.mapIdx fun i f => f.entry i).map Entry.name = files.map ImageFile.name := by
    refine List.ext_getElem? fun i => ?_
    rw [List.getElem?_map, List.getElem?_map, List.getElem?_mapIdx, Option.map_map]
    rfl
  rw [volumeOf, List.findIdx?_cons, ← hnames, List.findIdx?_map]
  by_cases hdev : name = bytesOf "dev"
  · rw [if_pos hdev, if_pos (decide_eq_true hdev.symm)]
  · rw [if_neg hdev, if_neg fun h => hdev (of_decide_eq_true h).symm]
    rfl

theorem handleAt_dev (hplaced : Situated syms g loc files) :
    g.handleAt g.initrdDev = some (.entry 0) := by
  rw [Initrd.handleAt, if_neg (Nat.ne_of_gt hplaced.dev_pos), if_neg hplaced.dev_root, if_pos rfl]

theorem handleAt_file (hplaced : Situated syms g loc files) (hpos : 0 < g.rootNodes)
    (hi : i < files.length) : g.handleAt (g.rootNodes + 184 * i) = some (.entry (i + 1)) := by
  have hindex : (g.rootNodes + 184 * i - g.rootNodes) / sizeofFsNode = i := by
    rw [Nat.add_sub_cancel_left]
    exact Nat.mul_div_cancel_left i (by decide)
  rw [Initrd.handleAt, if_neg (by omega), if_neg (hplaced.nodes_root i hi),
    if_neg (hplaced.nodes_dev i hi), hindex]

theorem answered_finddir (h : Serving syms g loc files s.mem) (hplaced : Situated syms g loc files)
    (hheld : FsCall.Held files.length node) (hname : StringAt s.mem a name)
    (hfits : a + name.length < 4294967296) :
    (FsCall.finddir node name a).Answered syms g writeCode openCode loc files s := by
  rcases hheld.cases with rfl | ⟨i, f, rfl, hf⟩
  · have hroot := h.mounted.finddirFs_eq a
    have hdev := strcmp_dev_of_stringAt hname hfits
    by_cases hsame : name = bytesOf "dev"
    · have hfind : initrdFinddir g g.initrdRoot a s.mem = .ok g.initrdDev := by
        rw [initrdFinddir, if_pos ⟨rfl, hdev.mpr hsame⟩]
      refine ⟨{ s with eax := g.initrdDev }, ?_, ?_, Untouched.refl _ _⟩
      · simp only [FsCall.step, Initrd.nodeOf, hroot, hfind]
        rfl
      · rw [FsCall.request, respond, findIdx?_volumeOf, if_pos hsame, FsCall.answer,
          handleAt_dev hplaced]
        rfl
    · have hstart : initrdFinddir g g.initrdRoot a s.mem =
          finddirLoop g a s.mem (files.map ImageFile.name).length 0 := by
        rw [initrdFinddir, if_neg fun hboth => hsame (hdev.mp hboth.2), h.mounted.count]
      have hfind := hstart.trans (finddirLoop_findIdx h.mounted hname hfits
        (show (files.map ImageFile.name).drop 0 = files.map ImageFile.name from List.drop_zero))
      cases hidx : (files.map ImageFile.name).findIdx? fun t => t = name with
      | none =>
          rw [hidx] at hfind
          refine ⟨{ s with eax := 0 }, ?_, ?_, Untouched.refl _ _⟩
          · simp only [FsCall.step, Initrd.nodeOf, hroot, hfind]
            rfl
          · rw [FsCall.request, respond, findIdx?_volumeOf, if_neg hsame, hidx]
            rfl
      | some i =>
          rw [hidx] at hfind
          have hi : i < files.length := by
            obtain ⟨hlt, -⟩ := List.findIdx?_eq_some_iff_getElem.mp hidx
            rwa [List.length_map] at hlt
          refine ⟨{ s with eax := g.rootNodes + 184 * (0 + i) }, ?_, ?_, Untouched.refl _ _⟩
          · simp only [FsCall.step, Initrd.nodeOf, hroot, hfind]
            rfl
          · rw [FsCall.request, respond, findIdx?_volumeOf, if_neg hsame, hidx, FsCall.answer,
              Nat.zero_add, handleAt_file hplaced h.mounted.nodes_pos hi]
            rfl
  · have hfile : finddirFs (finddirCode syms g) (g.nodeOf (.entry (i + 1))) a s.mem =
        some (.ok 0) := by
      rw [finddirFs, if_neg fun hdir => h.not_directory hf hdir.1]
    refine ⟨{ s with eax := 0 }, ?_, rfl, Untouched.refl _ _⟩
    simp only [FsCall.step, hfile]
    rfl

/-- **Every lawful call is answered from the image.** -/
theorem answered (h : Serving syms g loc files s.mem) (hplaced : Situated syms g loc files)
    (hn : files.length < syms.rootNodes) {c : FsCall}
    (hlawful : c.Lawful syms files.length (needed g loc files) s) :
    c.Answered syms g writeCode openCode loc files s := by
  cases c with
  | read node offset size buffer => exact h.answered_read hplaced hlawful
  | write node offset size buffer => exact h.answered_write hlawful
  | opens node => exact h.answered_opens hlawful
  | closes node => exact h.answered_closes hlawful
  | readdir node index => exact h.answered_readdir hplaced hn hlawful
  | finddir node name a => exact h.answered_finddir hplaced hlawful.1 hlawful.2.1 hlawful.2.2
  | store a byte =>
      refine ⟨{ s with mem := write8 s.mem a byte }, rfl, rfl,
        Untouched.of_sameOutside hlawful fun x hx => write8_apply_of_ne (by omega)⟩

end Serving

end Calls

/-! ### From the image to the calls -/

/-- Where the contents of the files of an image lie. -/
def fileRegions (m : Mem) (loc n : Nat) : List (Nat × Nat) :=
  (imageFiles m loc n).map fun f => (f.start, f.contents.length)

/-- An image in memory whose names end, whose contents are apart from the headers and `dirent`, and
which the three calls of `kmalloc` leave alone. -/
structure LoadedImage (syms : Symbols) (alloc : Kernel.Allocator) (loc n : Nat) (k : Kernel)
    (root dev nodes : Nat) (k1 k2 k3 : Kernel) : Prop
    extends RamdiskMemory syms alloc loc n k root dev nodes k1 k2 k3 where
  ends : ∀ i, i < n → NameEnds k.mem loc i
  fits : ∀ u ∈ fileRegions k.mem loc n, u.1 + u.2 ≤ 4294967296
  headers_apart : FsCall.Apart (fileRegions k.mem loc n) loc (4 + 76 * n)
  dirent_apart : FsCall.Apart ((loc, 4 + 76 * n) :: fileRegions k.mem loc n) syms.dirent
    sizeofDirent
  root_keeps : FreshBlock (fileRegions k.mem loc n) k sizeofFsNode root k1
  dev_keeps : FreshBlock (fileRegions k.mem loc n) (rooted syms root (bytesOf "initrd") k1)
    sizeofFsNode dev k2
  nodes_keeps : FreshBlock (fileRegions k.mem loc n) (rooted syms root (bytesOf "dev") k2)
    (sizeofFsNode * n) nodes k3

section Loaded

variable {syms : Symbols} {alloc : Kernel.Allocator} {loc n root dev nodes i : Nat}
  {k k1 k2 k3 : Kernel} {m : Mem} {f : ImageFile} {copies : List StringCopy}

theorem length_imageFiles (m : Mem) (loc n : Nat) : (imageFiles m loc n).length = n := by
  rw [imageFiles, List.length_map, List.length_range]

theorem imageFiles_getElem? :
    (imageFiles m loc n)[i]? = some f ↔ i < n ∧ imageFile m loc i = f := by
  rw [imageFiles, List.getElem?_map, Option.map_eq_some_iff]
  constructor
  · rintro ⟨j, hj, rfl⟩
    obtain ⟨hlt, hval⟩ := List.getElem?_eq_some_iff.mp hj
    rw [List.length_range] at hlt
    rw [List.getElem_range] at hval
    exact ⟨by omega, by rw [hval]⟩
  · rintro ⟨hi, rfl⟩
    exact ⟨i, List.getElem?_range hi, rfl⟩

theorem map_name_imageFiles (m : Mem) (loc n : Nat) :
    (imageFiles m loc n).map ImageFile.name = fileNames m loc n := by
  rw [imageFiles, List.map_map]
  rfl

namespace LoadedImage

theorem contents_same (h : LoadedImage syms alloc loc n k root dev nodes k1 k2 k3)
    (hprogress : Progress syms loc n nodes k3.mem n copies m) {u : Nat × Nat}
    (hu : u ∈ fileRegions k.mem loc n) : SameOn u.1 (u.1 + u.2) k.mem m := by
  have hroot := h.root_keeps.apart u hu
  have hinitrd : SameOn u.1 (u.1 + u.2) k1.mem (rooted syms root (bytesOf "initrd") k1).mem :=
    RamdiskMemory.sameOn_rooted (by decide) (by decide) hroot k1
  have hdev : SameOn u.1 (u.1 + u.2) k2.mem (rooted syms root (bytesOf "dev") k2).mem :=
    RamdiskMemory.sameOn_rooted (by decide) (by decide) hroot k2
  have hloop : SameOn u.1 (u.1 + u.2) k3.mem m :=
    hprogress.sameOn (Nat.le_refl n) (h.headers_apart u hu).symm (h.nodes_keeps.apart u hu)
  exact ((((h.root_keeps.same u hu).trans hinitrd).trans (h.dev_keeps.same u hu)).trans
    ((hdev.trans (h.nodes_keeps.same u hu)).trans hloop))

theorem rootNull (h : LoadedImage syms alloc loc n k root dev nodes k1 k2 k3)
    (hprogress : Progress syms loc n nodes k3.mem n copies m) {off : Nat}
    (hoff : off ∈ [fsRead, fsWrite, fsOpen, fsClose]) : read32 m (root + off) = 0 := by
  have hin : off + 4 ≤ 184 := by
    simp only [List.mem_cons, List.not_mem_nil, or_false] at hoff
    rcases hoff with rfl | rfl | rfl | rfl <;> decide
  have himage := h.root_fresh.apart (loc, 4 + 76 * n) List.mem_cons_self
  have hroot : (root, sizeofFsNode) ∈
      (dev, sizeofFsNode) :: (root, sizeofFsNode) :: inUse syms loc n :=
    List.mem_cons_of_mem _ List.mem_cons_self
  have hkmalloc := h.nodes_fresh.same _ hroot
  have hloop : SameOn root (root + sizeofFsNode) k3.mem m :=
    hprogress.sameOn (Nat.le_refl n) himage (h.nodes_fresh.apart _ hroot)
  have hsame : SameOn root (root + sizeofFsNode) (rooted syms root (bytesOf "dev") k2).mem m :=
    hkmalloc.trans hloop
  rw [hsame.read32 (Nat.le_add_right _ _) (by unfold sizeofFsNode; omega)]
  exact initDirectory_null syms root (bytesOf "dev") k2.mem hoff

/-- **What `init_ramdisk` makes of the image.** -/
theorem serving (h : LoadedImage syms alloc loc n k root dev nodes k1 k2 k3) :
    ∃ g k', initRamdisk syms alloc loc k = .ok (g, k') ∧
      (g.initrdRoot = root ∧ g.rootNodes = nodes) ∧
      Serving syms g loc (imageFiles k.mem loc n) k'.mem ∧
      Situated syms g loc (imageFiles k.mem loc n) := by
  have hmemory := h.toRamdiskMemory
  obtain ⟨copies, m, hinit, hprogress⟩ := hmemory.initRamdisk_of_ends h.ends
  obtain ⟨g, k', hinit1, hmounted, -, -, -⟩ := hmemory.mounted h.ends
  obtain ⟨g', k'', hinit2, hfiles⟩ := hmemory.fileIn h.ends
  obtain ⟨rfl, rfl⟩ := Prod.mk.inj (Except.ok.inj (hinit1.symm.trans hinit))
  obtain ⟨rfl, rfl⟩ := Prod.mk.inj (Except.ok.inj (hinit2.symm.trans hinit1))
  have hcount := length_imageFiles k.mem loc n
  have hloop : initFiles syms (initrdVars loc n root dev nodes) loc addressSpace 0 [] k3.mem =
      .ok (copies, m) := by
    rw [hmemory.initRamdisk_eq, bind_eq_ok] at hinit
    obtain ⟨⟨copies', m'⟩, hloop, hret⟩ := hinit
    obtain ⟨hg, hk⟩ := Prod.mk.inj (Except.ok.inj hret)
    have hcopies : copies' = copies := congrArg Initrd.copies hg
    have hmem : m' = m := congrArg Kernel.mem hk
    rw [hloop, hcopies, hmem]
  have hregion : ∀ f ∈ imageFiles k.mem loc n,
      (f.start, f.contents.length) ∈ fileRegions k.mem loc n := fun f hf => List.mem_map_of_mem hf
  -- where the headers and the nodes are
  have hheader : ∀ i, i < n → (initrdVars loc n root dev nodes).fileHeader i = headerAddr loc i :=
    fun i hi => (hmemory.table.places hi).header_eq
  have hfile : ∀ i f, (imageFiles k.mem loc n)[i]? = some f →
      read32 m (headerAddr loc i + headerOffset) = f.start ∧
        read32 m (headerAddr loc i + headerLength) = f.contents.length := by
    intro i f hf
    obtain ⟨hi, rfl⟩ := imageFiles_getElem?.mp hf
    have hlen : (imageFile k.mem loc i).contents.length =
        read32 k.mem (headerAddr loc i + headerLength) := length_window _ _ _
    have hread := hfiles i hi (imageFile k.mem loc i).start _ rfl hlen
      (h.fits _ (hregion _ (List.mem_of_getElem? hf)))
    have hinode : read32 m ((initrdVars loc n root dev nodes).rootNode i + fsInode) = i := by
      rw [hmemory.rootNode_eq hi]
      exact (hprogress.files i hi).inode
    have hoffset : read32 m ((initrdVars loc n root dev nodes).fileHeader (read32 m
        ((initrdVars loc n root dev nodes).rootNode i + fsInode)) + headerOffset) = _ :=
      hread.offset
    have hlength : read32 m ((initrdVars loc n root dev nodes).fileHeader (read32 m
        ((initrdVars loc n root dev nodes).rootNode i + fsInode)) + headerLength) = _ :=
      hread.length
    rw [hinode, hheader i hi] at hoffset hlength
    exact ⟨hoffset, hlength⟩
  -- which of the objects are apart
  have hstatic : (syms.dirent, sizeofDirent) ∈ inUse syms loc n :=
    List.mem_cons_of_mem _ List.mem_cons_self
  have hdev_root : root + 184 ≤ dev ∨ dev + 184 ≤ root := h.dev_fresh.apart _ List.mem_cons_self
  have hnodes_dev : dev + 184 ≤ nodes ∨ nodes + 184 * n ≤ dev :=
    h.nodes_fresh.apart _ List.mem_cons_self
  have hnodes_root : root + 184 ≤ nodes ∨ nodes + 184 * n ≤ root :=
    h.nodes_fresh.apart _ (List.mem_cons_of_mem _ List.mem_cons_self)
  refine ⟨_, _, hinit, ⟨rfl, rfl⟩, ⟨?_, fun off hoff => h.rootNull hprogress hoff, ?_,
    fun i f hf => (hfile i f hf).1, fun i f hf => (hfile i f hf).2, fun f hf => ?_⟩,
    ⟨fun i hi => hheader i (by omega), fun f hf => h.fits _ (hregion f hf), ?_,
    h.dev_fresh.pos, h.root_fresh.pos, ?_, fun i hi => ?_, fun i hi => ?_⟩⟩
  · rw [map_name_imageFiles]
    exact hmounted
  · rw [hcount]
    exact initFiles_all_null hmemory.table hmemory.image_read32
      (fun j hj => (hmemory.nameEnds_iff hj).mpr (h.ends j hj)) hloop
  · obtain ⟨i, -, rfl⟩ := List.mem_map.mp hf
    change _ = window m _ _
    rw [window_congr (h.contents_same hprogress (hregion _ hf))]
    dsimp only [imageFile]
    rw [length_window]
  · intro u hu
    rcases List.mem_cons.mp hu with rfl | hu
    · rw [hcount]
      exact h.dirent_apart _ List.mem_cons_self
    rcases List.mem_cons.mp hu with rfl | hu
    · exact (h.root_fresh.apart _ hstatic).symm
    rcases List.mem_cons.mp hu with rfl | hu
    · rw [hcount]
      exact (h.nodes_fresh.apart _ (List.mem_cons_of_mem _ (List.mem_cons_of_mem _ hstatic))).symm
    · exact h.dirent_apart _ (List.mem_cons_of_mem _ hu)
  · change dev ≠ root
    omega
  · change nodes + 184 * i ≠ root
    omega
  · change nodes + 184 * i ≠ dev
    omega

end LoadedImage

def FsCall.shown (g : Initrd) (c : FsCall) (_ s' : Caller) :
    Request (List UInt8) × Answer (List UInt8) UInt8 := (c.request, c.answer g s')

/-- **All that is ever answered comes from the image.** In every order of lawful calls, with stores
of other code in between, each call returns, and its answer is that of the volume in the image. -/
theorem fileSystem_serves (h : LoadedImage syms alloc loc n k root dev nodes k1 k2 k3)
    (hn : n < syms.rootNodes) (writeCode : Nat → Option WriteType)
    (openCode : Nat → Option OpenType) :
    ∃ g k', initRamdisk syms alloc loc k = .ok (g, k') ∧
      (g.initrdRoot = root ∧ g.rootNodes = nodes) ∧ ∀ eax ls s,
      Steps (Shown (FsCall.step syms g writeCode openCode)
          (FsCall.Lawful syms n (needed g loc (imageFiles k.mem loc n))) (FsCall.shown g))
        ⟨eax, k'.mem⟩ ls s →
        (∀ l ∈ ls, l.2 = respond (volumeOf (imageFiles k.mem loc n)) l.1) ∧
          ∀ c : FsCall, c.Lawful syms n (needed g loc (imageFiles k.mem loc n)) s →
            ∃ s', c.step syms g writeCode openCode s = .ok s' := by
  obtain ⟨g, k', hinit, hplaces, hserving, hplaced⟩ := h.serving
  have hcount := length_imageFiles k.mem loc n
  have hcall : ∀ (c : FsCall) (s : Caller), Serving syms g loc (imageFiles k.mem loc n) s.mem →
      c.Lawful syms n (needed g loc (imageFiles k.mem loc n)) s →
        c.Answered syms g writeCode openCode loc (imageFiles k.mem loc n) s := by
    intro c s hs hlawful
    exact hs.answered hplaced (by omega) (hcount.symm ▸ hlawful)
  refine ⟨g, k', hinit, hplaces, fun eax ls s hrun => ?_⟩
  have hinv := hrun.invariant (fun ls s =>
    (∀ l ∈ ls, l.2 = respond (volumeOf (imageFiles k.mem loc n)) l.1) ∧
      Serving syms g loc (imageFiles k.mem loc n) s.mem)
    ⟨fun l hl => absurd hl List.not_mem_nil, hserving⟩ ?_
  · refine ⟨hinv.1, fun c hlawful => ?_⟩
    obtain ⟨s', hok, -⟩ := hcall c s hinv.2 hlawful
    exact ⟨s', hok⟩
  · rintro ls l t u ⟨hanswers, ht⟩ ⟨c, hlawful, hok, rfl⟩
    obtain ⟨u', hok', hanswer, huntouched⟩ := hcall c t ht hlawful
    obtain rfl := Except.ok.inj (hok'.symm.trans hok)
    refine ⟨fun l hl => ?_, ht.of_kept huntouched⟩
    rcases List.mem_cons.mp hl with rfl | hl
    · exact hanswer
    · exact hanswers l hl

/-! ### A small image -/

theorem LoadedImage.of_placement {p : Nat} (alloc : Kernel.Allocator) (hkheap : k.kheap = 0)
    (hp : k.placementAddr = p) (hnfiles : read32 k.mem loc = n) (himage : loc + (4 + 76 * n) ≤ p)
    (hstatic : syms.dirent + sizeofDirent ≤ p) (hroom : p + 368 + 184 * n < 4294967296)
    (hends : ∀ i, i < n → NameEnds k.mem loc i)
    (hbelow : ∀ u ∈ fileRegions k.mem loc n, u.1 + u.2 ≤ p)
    (hheaders : FsCall.Apart (fileRegions k.mem loc n) loc (4 + 76 * n))
    (hdirent : FsCall.Apart ((loc, 4 + 76 * n) :: fileRegions k.mem loc n) syms.dirent
      sizeofDirent) :
    ∃ k1 k2 k3, LoadedImage syms alloc loc n k p (p + 184) (p + 368) k1 k2 k3 := by
  have hpos := syms.dirent_lt.1
  have hsize : sizeofFsNode * n % 4294967296 = 184 * n :=
    Nat.mod_eq_of_lt (show 184 * n < 4294967296 by omega)
  obtain ⟨k1, k2, k3, hmemory⟩ :=
    RamdiskMemory.of_placement alloc hkheap hp hnfiles himage hstatic hroom
  obtain ⟨k1', hcall1, hfresh1, hkheap1, hp1⟩ := FreshBlock.of_placement alloc sizeofFsNode
    hkheap hp (by omega) (show p + 184 < 4294967296 by omega) hbelow
  obtain rfl : k1' = k1 :=
    (Prod.mk.inj (Prod.mk.inj (Except.ok.inj (hcall1.symm.trans hmemory.root_call))).2).2
  obtain ⟨k2', hcall2, hfresh2, hkheap2, hp2⟩ := FreshBlock.of_placement
    (k := rooted syms p (bytesOf "initrd") k1') alloc sizeofFsNode hkheap1 hp1 (by omega)
    (show p + 184 + 184 < 4294967296 by omega) fun u hu =>
      Nat.le_trans (hbelow u hu) (Nat.le_add_right p 184)
  obtain rfl : k2' = k2 :=
    (Prod.mk.inj (Prod.mk.inj (Except.ok.inj (hcall2.symm.trans hmemory.dev_call))).2).2
  obtain ⟨k3', hcall3, hfresh3, -, -⟩ := FreshBlock.of_placement
    (k := rooted syms p (bytesOf "dev") k2') alloc (184 * n) hkheap2 hp2 (by omega)
    (show p + 184 + 184 + 184 * n < 4294967296 by omega) fun u hu =>
      Nat.le_trans (hbelow u hu) (show p ≤ p + 184 + 184 by omega)
  rw [← hsize] at hcall3
  obtain rfl : k3' = k3 :=
    (Prod.mk.inj (Prod.mk.inj (Except.ok.inj (hcall3.symm.trans hmemory.nodes_call))).2).2
  exact ⟨k1', k2', k3', hmemory, hends, fun u hu => by have := hbelow u hu; omega, hheaders,
    hdirent, hfresh1, hfresh2, hfresh3⟩

theorem loadedImage_twoFiles (alloc : Kernel.Allocator) :
    ∃ k1 k2 k3, LoadedImage linkMap alloc 0x1000 2 twoFilesKernel 0x200000 (0x200000 + 184)
      (0x200000 + 368) k1 k2 k3 := by
  have hregions : fileRegions twoFilesKernel.mem 0x1000 2 = [(0x109C, 10), (0x10A6, 3)] := by decide
  refine LoadedImage.of_placement alloc rfl rfl (by decide) (by decide) (by decide) (by decide)
    nameEnds_twoFiles ?_ ?_ ?_
  · rw [hregions]
    decide
  · rw [hregions, FsCall.Apart]
    decide
  · rw [hregions, FsCall.Apart]
    decide

/-- Four bytes of the first file, the second entry of the list, and the file of that name, which
other code has put into memory meanwhile. -/
theorem fileSystem_serves_twoFiles :
    ∃ g k', initRamdisk linkMap (Kernel.alloc 8) 0x1000 twoFilesKernel = .ok (g, k') ∧ ∃ ls s,
      Steps (Shown (FsCall.step linkMap g (fun _ => none) (fun _ => none))
          (FsCall.Lawful linkMap 2 (needed g 0x1000 (imageFiles twoFilesKernel.mem 0x1000 2)))
          (FsCall.shown g)) ⟨0, k'.mem⟩ ls s ∧
        ls = [(.finddir .root (bytesOf "bc"), .node (some (.entry 2))), (.other, .done),
          (.other, .done), (.other, .done), (.readdir .root 2, .entry (some (bytesOf "bc", 1))),
          (.read (.entry 1) 2 4, .bytes (bytesOf "2345"))] := by
  obtain ⟨k1, k2, k3, himage⟩ := loadedImage_twoFiles (Kernel.alloc 8)
  obtain ⟨g, k', hinit, ⟨hroot, hnodes⟩, hserves⟩ :=
    fileSystem_serves himage (by decide) (fun _ => none) (fun _ => none)
  have hneeded : needed g 0x1000 (imageFiles twoFilesKernel.mem 0x1000 2) =
      [(0x1000, 156), (0x200000, 184), (0x200000 + 368, 368), (0x109C, 10), (0x10A6, 3)] := by
    rw [needed, hroot, hnodes]
    decide
  have hrequest : ∀ (c : FsCall) (t u : Caller), (c.shown g t u).1 = c.request := fun _ _ _ => rfl
  have hapart : ∀ a len, 0x400000 ≤ a → FsCall.Apart (needed g 0x1000
      (imageFiles twoFilesKernel.mem 0x1000 2)) a len := by
    intro a len ha u hu
    rw [hneeded] at hu
    have hbelow : ∀ v ∈ [(0x1000, 156), (0x200000, 184), (0x200000 + 368, 368), (0x109C, 10),
        (0x10A6, 3)], v.1 + v.2 ≤ 0x400000 := by decide
    exact Or.inl (Nat.le_trans (hbelow u hu) ha)
  obtain ⟨s1, -, hread⟩ := Steps.answered (hserves 0) hrequest
    (.read (.entry 1) 2 4 0x400000) Steps.refl
    ⟨⟨by decide, by decide⟩, by decide, by decide, hapart _ _ (by decide)⟩
  obtain ⟨s2, -, hlist⟩ := Steps.answered (hserves 0) hrequest (.readdir .root 2) hread
    ⟨trivial, by decide, fun _ => Or.inl (by decide)⟩
  obtain ⟨s3, hb, hstored⟩ := Steps.answered (hserves 0) hrequest (.store 0x500000 98)
    hlist (hapart _ _ (by decide))
  obtain ⟨s4, hc, hstored⟩ := Steps.answered (hserves 0) hrequest (.store 0x500001 99)
    hstored (hapart _ _ (by decide))
  obtain ⟨s5, hnul, hstored⟩ := Steps.answered (hserves 0) hrequest (.store 0x500002 0)
    hstored (hapart _ _ (by decide))
  obtain rfl := Except.ok.inj hb
  obtain rfl := Except.ok.inj hc
  obtain rfl := Except.ok.inj hnul
  obtain ⟨s6, -, hrun⟩ := Steps.answered (hserves 0) hrequest
    (.finddir .root (bytesOf "bc") 0x500000) hstored
    ⟨trivial, ⟨rfl, by decide, rfl, by decide, rfl⟩, by decide⟩
  exact ⟨g, k', hinit, _, s6, hrun, by decide +kernel⟩

end Loaded

end Vulcanos
