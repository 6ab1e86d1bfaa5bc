import Mathlib.Data.Rat.Floor
import Mono98.Bootloader
import Mono98.Command

/-!
From power on to the kernel.

The image of the boot drive is put together by the `Makefile` with `utils/pad`. The BIOS loads its
first sector, which fetches the second stage behind itself; this one fetches the kernel, switches
to protected mode and jumps. The number of the boot drive is handed on in a byte of the first
stage and in a variable of the second, among the memory that is being loaded. All the while the
BIOS goes on working in memory of its own, some of which is on the stacks of the two stages.
-/

namespace Mono98.Boot

open Mono98.Lib.Bytes Mono98.Bootloader
open Mono98.Command (ascii)

/-! ### The image -/

/-- `bytes_required` of `utils/pad`, an `int`. The calculation in `double` is exact. -/
def bytesRequired (paddingSize : ℤ) (size : ℕ) : ℤ :=
  if paddingSize = -1 then 512 * ⌈(size : ℚ) / 512⌉ - size
  else (paddingSize - size).bmod (2 ^ 32)

/-- `main` of `utils/pad`. -/
def padMain (paddingSize : ℤ) (file : List UInt8) : List UInt8 :=
  file ++ List.replicate (bytesRequired paddingSize file.length).toNat 0

/-- The target `bootloader/bootloader.bin` of the `Makefile`. -/
def makeBootloader (part1 part2 : List UInt8) : List UInt8 := part1 ++ padMain 4096 part2

/-- The target `kernel.img`. -/
def makeImage (part1 part2 kernel : List UInt8) : List UInt8 :=
  padMain (-1) (makeBootloader part1 part2 ++ kernel)

/-! ### The second stage -/

/-- `gdt_start`: the null descriptor, and one each for the code and for the data. -/
def gdt : List UInt8 :=
  [0, 0, 0, 0, 0, 0, 0, 0] ++
  [0xFF, 0xFF, 0, 0, 0, 0b10011010, 0b11001111, 0] ++
  [0xFF, 0xFF, 0, 0, 0, 0b10010010, 0b11001111, 0]

/-- `part2.bin`, as it is linked to 0x7E00: what stands before the data of `bootloader.s`, these
data, and what stands behind them. -/
structure Part2 where
  text : List UInt8
  rest : List UInt8
  fits : text.length + 2079 + rest.length ≤ 4096

namespace Part2

variable (p : Part2)

def gdtStart : ℕ := 0x7E00 + p.text.length
def gdtPointer : ℕ := p.gdtStart + 24
def disk : ℕ := p.gdtStart + 30
def stackBottom : ℕ := p.gdtStart + 31
def stackTop : ℕ := p.stackBottom + 2048

def pointer : List UInt8 := le 2 24 ++ le 4 p.gdtStart

def data : List UInt8 := gdt ++ p.pointer ++ [0] ++ List.replicate 2048 0

def bin : List UInt8 := p.text ++ p.data ++ p.rest

end Part2

/-! ### The machine -/

/-- A drive of the BIOS. -/
structure Drive where
  geometry : Geometry
  image : ℕ → UInt8

/-- The memory that is the BIOS's: the table of interrupts and its data, what is behind them from
`ebda` on, with the screen and the ROM, and up to `frames` bytes below the top of the stack that it
has been called on. -/
def Own (ebda frames top a : ℕ) : Prop :=
  a < 0x600 ∨ ebda ≤ a ∨ top - frames ≤ a ∧ a < top

/-- The BIOS. The loader relies on three things: calls keep `dl` and all memory but the BIOS's own,
the extended data do not reach down to the kernel, and a stack of 2048 bytes is enough. What the
interrupts between the calls leave in the memory of the BIOS is counted to the calls. -/
structure Bios where
  ebda : ℕ
  frames : ℕ
  service : (n top : ℕ) → Cpu → Cpu
  dl : ∀ n top cpu, (service n top cpu).dl = cpu.dl
  mem : ∀ n top cpu a, ¬ Own ebda frames top a → (service n top cpu).mem a = cpu.mem a
  ebda_ge : 0x8E00 + 204 * 512 ≤ ebda
  ebda_le : ebda ≤ 0xA0000
  frames_le : frames ≤ 2048

/-- The memory of the BIOS while it is called on the stack that ends at `top`. -/
def Bios.Own (bios : Bios) (top a : ℕ) : Prop := Boot.Own bios.ebda bios.frames top a

variable (bios : Bios) (drives : ℕ → Drive) (p : Part2)

/-- A step of the second stage; the drive is the one in `dl`. -/
def step (cpu : Cpu) (i : Instr) : Cpu :=
  let next :=
    Bootloader.step (drives cpu.dl).geometry (drives cpu.dl).image (cpu.mem p.disk).toNat cpu i
  match i with
  | .int13 => bios.service 0x13 p.stackTop next
  | _ => next

def run (code : List Instr) (cpu : Cpu) : Cpu := code.foldl (step bios drives p) cpu

/-- `bootsector`, up to its jump, with a stack that ends at `top`: it clears `ss`, and has the
stack pointer as the BIOS has left it. -/
def bootsector (top : ℕ) (cpu : Cpu) : Cpu :=
  let cpu := { cpu with ah := 0, al := 0, es := 0 }
  let cpu := { cpu with mem := Function.update cpu.mem 0x7C02 (UInt8.ofNat cpu.dl) }
  let cpu := bios.service 0x15 top { cpu with ah := 0x24, al := 0x01 }
  let cpu := bios.service 0x10 top { cpu with ah := 0x00, al := 0x03 }
  let cpu := { cpu with ah := 0x02, al := 8, ch := 0, dh := 0, cl := 2 }
  let cpu := { cpu with es := 0, bx := 0x7E00 }
  bios.service 0x13 top (int13 (drives cpu.dl).geometry (drives cpu.dl).image cpu)

/-- `print_msg`, from the character `i` of the row on. -/
def printMsg (row : ℕ) : ℕ → List UInt8 → (ℕ → UInt8) → ℕ → UInt8
  | _, [], mem => mem
  | i, c :: msg, mem =>
    let cell := 0xB8000 + 2 * (row * 80 + i)
    printMsg row (i + 1) msg (Function.update (Function.update mem cell c) (cell + 1) 0x0F)

/-- `load` of `load.c`. -/
def load (mem : ℕ → UInt8) : ℕ → UInt8 :=
  printMsg 1 0 (ascii "This is pretty hard to get right on real hardware!")
    (printMsg 0 0 (ascii "Loading the kernel into memory...") mem)

/-- `protected_mode` of `load.c`. -/
def protectedMode (mem : ℕ → UInt8) : ℕ → UInt8 :=
  printMsg 2 0 (ascii "Entering protected mode...") mem

/-- A call from the second stage: what stands in the registers and on the stack afterwards is
up to the compiler. -/
def call (left : Cpu) (f : (ℕ → UInt8) → ℕ → UInt8) (cpu : Cpu) : Cpu :=
  { left with
    mem := fun a =>
      if p.stackBottom ≤ a ∧ a < p.stackTop then left.mem a else f cpu.mem a }

/-- The first instructions of `bootloader`: the number of the drive is taken over. -/
def takeDisk (cpu : Cpu) : Cpu :=
  let disk := cpu.mem 0x7C02
  { cpu with al := disk.toNat, mem := Function.update cpu.mem p.disk disk }

/-- `bootloader`, up to the instruction that loads the table of descriptors. -/
def stage2 (chs : Bool) (left left' : Cpu) (cpu : Cpu) : Cpu :=
  let cpu := call p left load (takeDisk p cpu)
  let cpu := run bios drives p (bootloader chs) cpu
  let cpu := call p left' protectedMode cpu
  bios.service 0x10 p.stackTop { cpu with ah := 0x00, al := 0x13 }

/-- Both stages. -/
def boot (chs : Bool) (top : ℕ) (left left' : Cpu) (cpu : Cpu) : Cpu :=
  stage2 bios drives p chs left left' (bootsector bios drives top cpu)

/-! ### Protected mode -/

/-- What the processor takes from a descriptor. -/
structure Descriptor where
  base : ℕ
  limit : ℕ
  access : UInt8
  flags : ℕ

def descriptor (mem : ℕ → UInt8) (a : ℕ) : Descriptor where
  base := Lib.Bytes.load mem 3 (a + 2) + 2 ^ 24 * (mem (a + 7)).toNat
  limit := Lib.Bytes.load mem 2 a + 2 ^ 16 * ((mem (a + 6)).toNat % 16)
  access := mem (a + 5)
  flags := (mem (a + 6)).toNat / 16

/-- The last offset of a segment; the limit counts pages when the upper flag is set. -/
def Descriptor.last (d : Descriptor) : ℕ :=
  if 8 ≤ d.flags then 4096 * d.limit + 4095 else d.limit

/-- `lgdt` with operands of 16 bits: the limit of the table, and three bytes of its address. -/
def lgdt (mem : ℕ → UInt8) (a : ℕ) : ℕ × ℕ := (Lib.Bytes.load mem 2 a, Lib.Bytes.load mem 3 (a + 2))

/-- The linear address of an offset in the segment that a selector stands for, if the access
bits are such that they agree with `kind` as far as `mask` goes. -/
def linear (mem : ℕ → UInt8) (table : ℕ × ℕ) (mask kind : UInt8) (selector offset : ℕ) :
    Option ℕ :=
  let d := descriptor mem (table.2 + selector)
  if selector + 7 ≤ table.1 ∧ d.access &&& mask = kind ∧ offset ≤ d.last then
    some (d.base + offset)
  else none

/-- The byte at an offset of the code segment: it is present and can be executed. -/
def fetch (mem : ℕ → UInt8) (table : ℕ × ℕ) (selector offset : ℕ) : Option UInt8 :=
  (linear mem table 0x98 0x98 selector offset).map mem

/-- Where a write to an offset of the data segment goes: it is present and can be written. -/
def place (mem : ℕ → UInt8) (table : ℕ × ℕ) (selector offset : ℕ) : Option ℕ :=
  linear mem table 0x9A 0x92 selector offset

/-! ### The image has its parts in whole sectors -/

lemma ceil_sectors (n : ℕ) : ⌈(n : ℚ) / 512⌉ = ((n + 511) / 512 : ℕ) := by
  rw [Int.ceil_eq_iff]
  have h := Nat.div_add_mod (n + 511) 512
  have hlt := Nat.mod_lt (n + 511) (show 0 < 512 by decide)
  generalize (n + 511) / 512 = q at h ⊢
  constructor
  · rw [lt_div_iff₀ (by norm_num), Int.cast_natCast, sub_mul, sub_lt_iff_lt_add]
    exact_mod_cast show q * 512 < n + 1 * 512 by omega
  · rw [div_le_iff₀ (by norm_num), Int.cast_natCast]
    exact_mod_cast show n ≤ q * 512 by omega

lemma padMain_sectors (file : List UInt8) :
    padMain (-1) file = pad (512 * ((file.length + 511) / 512)) file := by
  rw [padMain, pad, bytesRequired, if_pos rfl, ceil_sectors]
  congr 2
  omega

lemma padMain_size {n : ℕ} (hn : n < 2 ^ 31) {file : List UInt8} (h : file.length ≤ n) :
    padMain n file = pad n file := by
  rw [padMain, pad, bytesRequired, if_neg (by omega), Int.bmod_eq_of_le (by omega) (by omega)]
  congr 2
  omega

lemma makeImage_eq (part1 kernel : List UInt8) {part2 : List UInt8} (h : part2.length ≤ 4096) :
    makeImage part1 part2 kernel = kernelImg part1 part2 kernel := by
  rw [makeImage, padMain_sectors, makeBootloader,
    show padMain 4096 part2 = pad 4096 part2 from padMain_size (n := 4096) (by decide) h]
  rfl

/-! ### The first stage -/

variable {bios drives p} {g : Geometry} {image : ℕ → UInt8} {cpu cpu' left : Cpu} {a d top : ℕ}

/-- **The first stage**: the number of the drive is kept, and eight sectors follow. -/
lemma bootsector_mem (hd : drives cpu.dl = ⟨g, image⟩) (ha : ¬ bios.Own top a) :
    (bootsector bios drives top cpu).mem a =
      if 0x7E00 ≤ a ∧ a < 0x8E00 then image (512 + (a - 0x7E00))
      else if a = 0x7C02 then UInt8.ofNat cpu.dl else cpu.mem a := by
  have hsector : g.sector 0 0 2 = 1 := by simp [Geometry.sector]
  simp only [bootsector, int13, if_true, bios.dl, hd, Nat.mul_zero, Nat.zero_mul,
    Nat.zero_add, Nat.reduceDiv, Nat.reduceMod, hsector, copySectors, bios.mem _ _ _ a ha,
    Function.update_apply, Nat.reduceMul, Nat.reduceAdd]

/-! ### The places in the second stage -/

namespace Part2

variable (p)

lemma disk_lt : p.disk < p.stackBottom := Nat.lt_succ_self _

lemma stackTop_le : p.stackTop ≤ 0x8E00 := by
  have := p.fits
  simp only [stackTop, stackBottom, gdtStart]
  omega

lemma le_gdtStart : 0x7E00 ≤ p.gdtStart := Nat.le_add_right _ _

lemma bin_length : p.bin.length ≤ 4096 := by
  have := p.fits
  simp only [bin, data, gdt, pointer, List.length_append, List.length_cons, List.length_nil,
    List.length_replicate, le_length]
  omega

end Part2

/-- In the second stage the BIOS has, of the memory between its data and its extended data, the
stack alone. -/
lemma not_own (hlo : 0x600 ≤ a) (hhi : a < bios.ebda) (h : a < p.stackBottom ∨ p.stackTop ≤ a) :
    ¬ bios.Own p.stackTop a := by
  have hframes := bios.frames_le
  have htop : p.stackTop = p.stackBottom + 2048 := rfl
  rintro (hin | hin | hin) <;> omega

lemma not_own_disk (bios : Bios) (p : Part2) : ¬ bios.Own p.stackTop p.disk := by
  have hp := p.disk_lt
  have hs := p.stackTop_le
  have hle := p.le_gdtStart
  have hebda := bios.ebda_ge
  have htop : p.stackTop = p.stackBottom + 2048 := rfl
  have hdisk : p.disk = p.gdtStart + 30 := rfl
  exact not_own (by omega) (by omega) (Or.inl hp)

/-! ### The reads -/

/-- A read is one from the drive whose number is kept. -/
lemma run_read (r : Read) (hcl : r.cl < 64) (hdisk : (cpu.mem p.disk).toNat = d)
    (hd : drives d = ⟨g, image⟩) (ha : ¬ bios.Own p.stackTop a) :
    (run bios drives p r.code cpu).mem a =
      copySectors image (g.sector r.ch r.dh r.cl) r.al (r.es * 16) cpu.mem a := by
  have hread := congrFun (read_mem g image d r hcl cpu) a
  rw [← hread]
  simp only [run, Bootloader.run, Read.code, List.foldl_cons, List.foldl_nil, step,
    Bootloader.step, bios.mem _ _ _ a ha, hdisk, hd]

/-- The reads put nothing below or behind the kernel. -/
def Above (lo hi : ℕ) (r : Read) : Prop :=
  lo ≤ r.es * 16 ∧ r.es * 16 + r.al * 512 ≤ hi ∧ r.cl < 64

lemma Above.outside {lo hi : ℕ} {r : Read} (h : Above lo hi r) (ha : a < lo ∨ hi ≤ a)
    (lba : ℕ) (mem : ℕ → UInt8) : copySectors image lba r.al (r.es * 16) mem a = mem a := by
  obtain ⟨hlo, hhi, -⟩ := h
  rw [copySectors, if_neg (by omega)]

/-- Reads that leave the variable alone are all from the one drive: outside of the memory of the
BIOS they do what they do without it. -/
lemma run_reads {rs : List Read} {hi : ℕ} (h : ∀ r ∈ rs, Above 0x8E00 hi r)
    (hlt : p.disk < 0x8E00) (hdisk : (cpu.mem p.disk).toNat = d) (hd : drives d = ⟨g, image⟩)
    (ha : ¬ bios.Own p.stackTop a) (hmem : cpu.mem a = cpu'.mem a) :
    (run bios drives p (rs.flatMap Read.code) cpu).mem a =
      (Bootloader.run g image d (rs.flatMap Read.code) cpu').mem a := by
  induction rs generalizing cpu cpu' with
  | nil => exact hmem
  | cons r rs ih =>
    have hr := h r List.mem_cons_self
    have hcl : r.cl < 64 := hr.2.2
    have hkept : (run bios drives p r.code cpu).mem p.disk = cpu.mem p.disk := by
      rw [run_read r hcl hdisk hd (not_own_disk bios p), hr.outside (Or.inl hlt)]
    have hsame : (run bios drives p r.code cpu).mem a =
        (Bootloader.run g image d r.code cpu').mem a := by
      rw [run_read r hcl hdisk hd ha, read_mem g image d r hcl, copySectors, copySectors, hmem]
    rw [List.flatMap_cons, run_append, run, List.foldl_append]
    exact ih (fun r hr => h r (List.mem_cons_of_mem _ hr)) (hkept ▸ hdisk) hsame

lemma reads_outside {rs : List Read} {lo hi : ℕ} (h : ∀ r ∈ rs, Above lo hi r)
    (ha : a < lo ∨ hi ≤ a) :
    (Bootloader.run g image d (rs.flatMap Read.code) cpu).mem a = cpu.mem a := by
  induction rs generalizing cpu with
  | nil => rfl
  | cons r rs ih =>
    have hr := h r List.mem_cons_self
    rw [List.flatMap_cons, run_append, ih fun r hr => h r (List.mem_cons_of_mem _ hr),
      read_mem g image d r hr.2.2, hr.outside ha]

lemma reads_above (chs : Bool) :
    ∀ r ∈ if chs then chsLoad else reads, Above 0x8E00 (0x8E00 + 204 * 512) r := by
  cases chs
  · simp [reads, Above]
  · simp [chsLoad, Above]

/-- The reset is the same on every drive, and changes nothing. -/
lemma run_bootloader (chs : Bool) (hlt : p.disk < 0x8E00)
    (hdisk : (cpu.mem p.disk).toNat = d) (hd : drives d = ⟨g, image⟩)
    (ha : ¬ bios.Own p.stackTop a) :
    (run bios drives p (bootloader chs) cpu).mem a =
      (Bootloader.run g image d (bootloader chs) cpu).mem a := by
  have hreset : ∀ b, ¬ bios.Own p.stackTop b →
      (run bios drives p [.movAh 0x00, .int13] cpu).mem b = cpu.mem b := fun b hb =>
    bios.mem 0x13 p.stackTop _ b hb
  rw [bootloader, run_append, run, List.foldl_append]
  exact run_reads (reads_above chs) hlt ((hreset _ (not_own_disk bios p)).symm ▸ hdisk) hd ha
    (hreset a ha)

lemma bootloader_outside (chs : Bool) (ha : a < 0x8E00 ∨ 0x8E00 + 204 * 512 ≤ a) :
    (Bootloader.run g image d (bootloader chs) cpu).mem a = cpu.mem a := by
  rw [bootloader, run_append, reads_outside (reads_above chs) ha]
  rfl

/-! ### The calls -/

lemma printMsg_mem (row : ℕ) (i : ℕ) (msg : List UInt8) (mem : ℕ → UInt8) (ha : a < 0xB8000) :
    printMsg row i msg mem a = mem a := by
  induction msg generalizing i mem with
  | nil => rfl
  | cons c msg ih =>
    rw [printMsg, ih, Function.update_of_ne (by omega), Function.update_of_ne (by omega)]

lemma load_mem (mem : ℕ → UInt8) (ha : a < 0xB8000) : load mem a = mem a := by
  rw [load, printMsg_mem _ _ _ _ ha, printMsg_mem _ _ _ _ ha]

lemma protectedMode_mem (mem : ℕ → UInt8) (ha : a < 0xB8000) : protectedMode mem a = mem a :=
  printMsg_mem _ _ _ _ ha

/-- A call changes nothing but its stack and the screen. -/
lemma call_mem {f : (ℕ → UInt8) → ℕ → UInt8} (hf : f cpu.mem a = cpu.mem a)
    (ha : a < p.stackBottom ∨ p.stackTop ≤ a) : (call p left f cpu).mem a = cpu.mem a :=
  (if_neg (by omega)).trans hf

variable {chs : Bool} {left' : Cpu}

/-- The variable has the number, and all else but the stack and the screen is as it was. -/
lemma taken (left cpu : Cpu) (hlt : a < 0xB8000)
    (hstack : a < p.stackBottom ∨ p.stackTop ≤ a) :
    (call p left load (takeDisk p cpu)).mem a =
      if a = p.disk then cpu.mem 0x7C02 else cpu.mem a := by
  rw [call_mem (load_mem _ hlt) hstack]
  exact Function.update_apply _ _ _ _

lemma taken_disk (left cpu : Cpu) :
    (call p left load (takeDisk p cpu)).mem p.disk = cpu.mem 0x7C02 := by
  have hp := p.disk_lt
  have hs := p.stackTop_le
  have htop : p.stackTop = p.stackBottom + 2048 := rfl
  rw [taken left cpu (by omega) (Or.inl hp), if_pos rfl]

/-- What the second stage puts into the memory between the data of the BIOS. -/
lemma stage2_mem (hd : drives (cpu.mem 0x7C02).toNat = ⟨g, image⟩) (hlo : 0x600 ≤ a)
    (hhi : a < bios.ebda) (hstack : a < p.stackBottom ∨ p.stackTop ≤ a) :
    (stage2 bios drives p chs left left' cpu).mem a =
      (Bootloader.run g image (cpu.mem 0x7C02).toNat (bootloader chs)
        (call p left load (takeDisk p cpu))).mem a := by
  have hp := p.disk_lt
  have hs := p.stackTop_le
  have htop : p.stackTop = p.stackBottom + 2048 := rfl
  have hebda := bios.ebda_le
  have hown : ¬ bios.Own p.stackTop a := not_own hlo hhi hstack
  rw [stage2, bios.mem _ _ _ a hown, call_mem (protectedMode_mem _ (by omega)) hstack,
    run_bootloader chs (by omega) (congrArg UInt8.toNat (taken_disk left cpu)) hd hown]

/-- What it leaves as it is, but for its variable and its stack. -/
lemma stage2_outside (hd : drives (cpu.mem 0x7C02).toNat = ⟨g, image⟩)
    (ha : a < 0x8E00 ∨ 0x8E00 + 204 * 512 ≤ a) (hlo : 0x600 ≤ a) (hhi : a < bios.ebda)
    (hstack : a < p.stackBottom ∨ p.stackTop ≤ a) :
    (stage2 bios drives p chs left left' cpu).mem a =
      if a = p.disk then cpu.mem 0x7C02 else cpu.mem a := by
  have hebda := bios.ebda_le
  rw [stage2_mem hd hlo hhi hstack, bootloader_outside chs ha, taken left cpu (by omega) hstack]

/-! ### Protected mode -/

section Gdt

variable {mem : ℕ → UInt8} (h : Stands mem p.gdtStart (gdt ++ p.pointer))
include h

lemma lgdt_pointer : lgdt mem p.gdtPointer = (24, p.gdtStart) := by
  have hs := p.stackTop_le
  have hp : Stands mem p.gdtPointer p.pointer := (stands_append.mp h).2
  obtain ⟨h2, h4⟩ := stands_append.mp hp
  have h3 : Stands mem (p.gdtPointer + 2) (le 3 p.gdtStart) :=
    (stands_append.mp (show Stands _ _ (le 3 p.gdtStart ++ [_]) from h4)).1
  have hlt : p.gdtStart < 256 ^ 3 := by
    simp only [Part2.stackTop, Part2.stackBottom] at hs
    omega
  rw [lgdt, load_of_stands h2 (by decide), load_of_stands h3 hlt]

/-- The segments of the code and of the data are the whole memory. -/
lemma descriptor_flat {selector : ℕ} (hsel : selector = 0x08 ∨ selector = 0x10) :
    (descriptor mem (p.gdtStart + selector)).base = 0 ∧
      (descriptor mem (p.gdtStart + selector)).last = 2 ^ 32 - 1 ∧
      (descriptor mem (p.gdtStart + selector)).access =
        if selector = 0x08 then 0b10011010 else 0b10010010 := by
  have hg := (stands_append.mp h).1
  have byte : ∀ k (hk : k < gdt.length), mem (p.gdtStart + k) = gdt[k] := hg
  rcases hsel with rfl | rfl
  · simp only [descriptor, Descriptor.last, Lib.Bytes.load, Nat.add_assoc, Nat.reduceAdd,
      byte 8 (by decide), byte 9 (by decide), byte 10 (by decide), byte 11 (by decide),
      byte 12 (by decide), byte 13 (by decide), byte 14 (by decide), byte 15 (by decide)]
    decide
  · simp only [descriptor, Descriptor.last, Lib.Bytes.load, Nat.add_assoc, Nat.reduceAdd,
      byte 16 (by decide), byte 17 (by decide), byte 18 (by decide), byte 19 (by decide),
      byte 20 (by decide), byte 21 (by decide), byte 22 (by decide), byte 23 (by decide)]
    decide

lemma fetch_eq (ha : a < 2 ^ 32) : fetch mem (lgdt mem p.gdtPointer) 0x08 a = some (mem a) := by
  obtain ⟨hbase, hlast, haccess⟩ := descriptor_flat h (Or.inl rfl)
  rw [lgdt_pointer h, fetch, linear, hbase, hlast, haccess, if_pos, Option.map_some, Nat.zero_add]
  exact ⟨show 0x08 + 7 ≤ 24 by decide, by decide, by omega⟩

lemma place_eq (ha : a < 2 ^ 32) : place mem (lgdt mem p.gdtPointer) 0x10 a = some a := by
  obtain ⟨hbase, hlast, haccess⟩ := descriptor_flat h (Or.inr rfl)
  rw [lgdt_pointer h, place, linear, hbase, hlast, haccess, if_pos, Nat.zero_add]
  exact ⟨show 0x10 + 7 ≤ 24 by decide, by decide, by omega⟩

end Gdt

/-! ### Both stages -/

/-- The kernel is one that the build can load: the floppy build up to 171 sectors, the default
build up to 180, or up to 204 when these have the repetition that the fourth read makes. -/
def Fits (chs : Bool) (g : Geometry) (kernel : List UInt8) : Prop :=
  if chs then g = ⟨2, 18⟩ ∧ kernel.length ≤ 171 * 512
  else g.spt = 63 ∧ 2 < g.heads ∧ kernel.length ≤ 204 * 512 ∧ Repeats kernel

/-- What the loader has done when it jumps to the kernel. -/
structure Booted (bios : Bios) (p : Part2) (kernel : List UInt8) (top : ℕ) (cpu b : Cpu) :
    Prop where
  kernel : ∀ i (h : i < kernel.length),
    fetch b.mem (lgdt b.mem p.gdtPointer) 0x08 (0x8E00 + i) = some kernel[i]
  data : ∀ a < 2 ^ 32, place b.mem (lgdt b.mem p.gdtPointer) 0x10 a = some a
  text : Stands b.mem 0x7E00 p.text
  disk : (b.mem p.disk).toNat = cpu.dl
  outside : ∀ a, ¬ bios.Own top a → a ≠ 0x7C02 → a < 0x7E00 ∨ 0x8E00 + 204 * 512 ≤ a →
    b.mem a = cpu.mem a

variable {part1 kernel : List UInt8}

/-- The second stage on the drive. -/
lemma image_part2 (h1 : part1.length = 512)
    (himg : Stands image 0 (makeImage part1 p.bin kernel)) : Stands image 512 p.bin := by
  rw [makeImage_eq part1 kernel p.bin_length] at himg
  have h := (stands_append.mp (stands_append.mp (stands_append.mp himg).1).1).2
  rw [h1, Nat.zero_add] at h
  exact (stands_append.mp h).1

lemma stage2_loaded (himg : Stands image (9 * 512) kernel) (hfit : Fits chs g kernel)
    (cpu : Cpu) : Loaded (Bootloader.run g image d (bootloader chs) cpu) kernel := by
  cases chs with
  | true =>
    obtain ⟨hg, hlen⟩ := hfit
    intro i hi
    rw [chs_mem g image d hg cpu i (by omega), himg i hi]
  | false =>
    obtain ⟨hg, -, hlen, hrep⟩ := hfit
    exact (loaded_iff_repeats hg himg hlen cpu).mpr hrep

section Chain

variable (htop : top ≤ 0x7C00 ∨ 0x8E00 ≤ top - bios.frames) (hd : drives cpu.dl = ⟨g, image⟩)
include htop

/-- The two stages are no memory of the BIOS. -/
lemma stages_not_own (hlo : 0x7C00 ≤ a) (hhi : a < 0x8E00) : ¬ bios.Own top a := by
  have hebda := bios.ebda_ge
  rintro (hin | hin | hin) <;> omega

include hd

lemma bootsector_part2 (h1 : part1.length = 512)
    (himg : Stands image 0 (makeImage part1 p.bin kernel)) :
    Stands (bootsector bios drives top cpu).mem 0x7E00 p.bin := fun i hi => by
  have hlen := p.bin_length
  rw [bootsector_mem hd (stages_not_own htop (by omega) (by omega)), if_pos ⟨by omega, by omega⟩,
    Nat.add_sub_cancel_left, image_part2 h1 himg i hi]

lemma bootsector_disk (hdl : cpu.dl < 256) :
    ((bootsector bios drives top cpu).mem 0x7C02).toNat = cpu.dl := by
  rw [bootsector_mem hd (stages_not_own htop (by omega) (by omega)), if_neg (by omega), if_pos rfl]
  exact UInt8.toNat_ofNat_of_lt hdl

/-- The parts of the second stage in front of its variable. -/
lemma boot_parts (hdl : cpu.dl < 256) (h1 : part1.length = 512)
    (himg : Stands image 0 (makeImage part1 p.bin kernel)) :
    Stands (boot bios drives p chs top left left' cpu).mem 0x7E00
      (p.text ++ (gdt ++ p.pointer)) := by
  have hstage1 := bootsector_part2 (p := p) htop hd h1 himg
  have hdisk := bootsector_disk htop hd hdl
  have hs := p.stackTop_le
  have hst : p.stackTop = p.stackBottom + 2048 := rfl
  have hp := p.disk_lt
  have hebda := bios.ebda_ge
  have hbin : p.bin = p.text ++ (gdt ++ p.pointer) ++
      ([0] ++ List.replicate 2048 0 ++ p.rest) := by
    simp only [Part2.bin, Part2.data, List.append_assoc]
  rw [hbin] at hstage1
  intro i hi
  have hi' : 0x7E00 + i < p.disk := by
    simp only [List.length_append, gdt, Part2.pointer, le_length, List.length_cons,
      List.length_nil] at hi
    simp only [Part2.disk, Part2.gdtStart]
    omega
  rw [boot, stage2_outside (hdisk.symm ▸ hd) (Or.inl (by omega)) (by omega) (by omega)
    (Or.inl (by omega)), if_neg (by omega)]
  exact (stands_append.mp hstage1).1 i hi

end Chain

/-- **From power on to the kernel**, for each image that the `Makefile` makes, whichever drive it
is booted from, and whatever the BIOS does in its own memory. Of this the frames on the first
stack must not lie among the two stages. The second stage is in place when the first one jumps to
it. When it jumps itself, its code is as it was, its variable has the number of the drive, and both
segments are the whole memory: the jump leads to the first byte of the kernel, which is in place to
its last byte. But for what is the BIOS's nothing else has changed. -/
theorem boot_chain (htop : top ≤ 0x7C00 ∨ 0x8E00 ≤ top - bios.frames) (hdl : cpu.dl < 256)
    (hd : drives cpu.dl = ⟨g, image⟩) (h1 : part1.length = 512)
    (himg : Stands image 0 (makeImage part1 p.bin kernel)) (hfit : Fits chs g kernel) :
    Stands (bootsector bios drives top cpu).mem 0x7E00 p.bin ∧
      Booted bios p kernel top cpu (boot bios drives p chs top left left' cpu) := by
  have hs := p.stackTop_le
  have hst : p.stackTop = p.stackBottom + 2048 := rfl
  have hle := p.le_gdtStart
  have hp := p.disk_lt
  have hvar : p.disk = p.gdtStart + 30 := rfl
  have hebda := bios.ebda_ge
  have hk : Stands image (9 * 512) kernel :=
    image_kernel h1 p.bin_length (makeImage_eq part1 kernel p.bin_length ▸ himg)
  have hdisk := bootsector_disk htop hd hdl
  have hd' : drives ((bootsector bios drives top cpu).mem 0x7C02).toNat = ⟨g, image⟩ := hdisk ▸ hd
  have hparts : Stands (boot bios drives p chs top left left' cpu).mem 0x7E00
      (p.text ++ (gdt ++ p.pointer)) := boot_parts htop hd hdl h1 himg
  obtain ⟨htext, hgdt⟩ := stands_append.mp hparts
  refine ⟨bootsector_part2 htop hd h1 himg,
    fun i hi => ?_, fun a ha => place_eq hgdt ha, htext, ?_, fun a hout hne ha => ?_⟩
  · have hbound : kernel.length ≤ 204 * 512 := by
      cases chs with
      | true => exact hfit.2.trans (by omega)
      | false => exact hfit.2.2.1
    rw [fetch_eq hgdt (by omega), boot, stage2_mem hd' (by omega) (by omega) (Or.inr (by omega)),
      stage2_loaded hk hfit _ i hi]
  · rw [boot, stage2_outside hd' (Or.inl (by omega)) (by omega) (by omega) (Or.inl hp), if_pos rfl,
      hdisk]
  · have hfar : a < p.disk ∨ p.stackTop ≤ a := by omega
    have hlo : 0x600 ≤ a := by
      by_contra hlt
      exact hout (Or.inl (by omega))
    have hhi : a < bios.ebda := by
      by_contra hge
      exact hout (Or.inr (Or.inl (by omega)))
    rw [boot, stage2_outside hd' (by omega) hlo hhi (by omega), if_neg (by omega),
      bootsector_mem hd hout, if_neg (by omega), if_neg hne]

/-- A BIOS that has 1 KiB of extended data. It keeps the mode at 0x449 and the state of the drive
at 0x441, clears the screen with the mode, and leaves a return address with the flags below the
top of the stack. -/
def plainBios : Bios where
  ebda := 0x9FC00
  frames := 6
  service n top cpu := { cpu with
    mem := fun a =>
      if top - 6 ≤ a ∧ a < top then 0xFF
      else if n = 0x10 ∧ a = 0x449 then UInt8.ofNat cpu.al
      else if n = 0x13 ∧ a = 0x441 then 0
      else if n = 0x10 ∧ 0xA0000 ≤ a ∧ a < 0xC0000 then 0
      else cpu.mem a }
  dl _ _ _ := rfl
  mem n top cpu a h := by
    simp only [Own, not_or, not_lt, not_le] at h
    simp only
    rw [if_neg (by omega), if_neg (by omega), if_neg (by omega), if_neg (by omega)]
  ebda_ge := by decide
  ebda_le := by decide
  frames_le := by decide

lemma fits_bytes : Fits false ⟨16, 63⟩ [1, 2, 3] :=
  ⟨rfl, by decide, by decide, fun i hi h => by
    simp only [List.length_cons, List.length_nil] at h
    omega⟩

/-- A kernel of three bytes, on the drive 0x80, with a stack below the first stage. -/
theorem boot_chain_bytes : Booted plainBios ⟨[], [], by decide⟩ [1, 2, 3] 0x7C00
    { powerOn with dl := 0x80 }
    (boot plainBios
      (fun _ => ⟨⟨16, 63⟩, fun i =>
        (makeImage (List.replicate 512 0) (Part2.bin ⟨[], [], by decide⟩) [1, 2, 3]).getD i 0⟩)
      ⟨[], [], by decide⟩ false 0x7C00 powerOn powerOn { powerOn with dl := 0x80 }) :=
  (boot_chain (Or.inl (Nat.le_refl _)) (show 0x80 < 256 by decide) rfl List.length_replicate
    (stands_getD _) fits_bytes).2

end Mono98.Boot
