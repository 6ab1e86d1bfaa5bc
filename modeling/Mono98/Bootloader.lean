import Mono98.Lib.Bytes

/-!
Loading the kernel from the disk.

The second stage of the boot loader fetches `kernel.bin` with a handful of BIOS reads. Each is
told where on the disk to start, in cylinders, heads and sectors, and the segment to put the
sectors at; the reads have to tile the disk and the memory alike. Those of the floppy build do.
Of the four reads of the default build the last one starts at the sectors of the third again.
-/

namespace Mono98.Bootloader

open Mono98.Lib.Bytes

/-! ### The machine -/

/-- The registers that the loader sets up for the BIOS, and the memory at its linear
addresses. -/
structure Cpu where
  ah : ℕ
  al : ℕ
  bx : ℕ
  ch : ℕ
  cl : ℕ
  dh : ℕ
  dl : ℕ
  es : ℕ
  mem : ℕ → UInt8

/-- The instructions of the loader. -/
inductive Instr
  | movAx (v : ℕ)
  | movEsAx
  | movAh (v : ℕ)
  | movAl (v : ℕ)
  | movCh (v : ℕ)
  | movDh (v : ℕ)
  | movCl (v : ℕ)
  | movDlDisk -- `mov dl, [disk]`
  | xorBx -- `xor bx, bx`
  | int13

/-- What the BIOS takes the disk to be. -/
structure Geometry where
  heads : ℕ
  spt : ℕ

/-- The number of a sector; the sectors of a track count from 1. -/
def Geometry.sector (g : Geometry) (c h s : ℕ) : ℕ := (c * g.heads + h) * g.spt + s - 1

/-- `n` sectors from number `lba` on, copied to the linear address `dest`. -/
def copySectors (image : ℕ → UInt8) (lba n dest : ℕ) (mem : ℕ → UInt8) : ℕ → UInt8 := fun a =>
  if dest ≤ a ∧ a < dest + n * 512 then image (lba * 512 + (a - dest)) else mem a

-- The boot drive, from its first byte on, and its number.
variable (g : Geometry) (image : ℕ → UInt8) (disk : ℕ)

/-- `int 0x13`: function 2 reads sectors from the drive in `dl`, here always the boot drive. The
upper two bits of `cl` belong to the cylinder. Of the other functions the loader calls only the
reset. -/
def int13 (cpu : Cpu) : Cpu :=
  if cpu.ah = 2 then
    let lba := g.sector (cpu.ch + 256 * (cpu.cl / 64)) cpu.dh (cpu.cl % 64)
    { cpu with ah := 0, mem := copySectors image lba cpu.al (cpu.es * 16 + cpu.bx) cpu.mem }
  else { cpu with ah := 0 }

def step (cpu : Cpu) : Instr → Cpu
  | .movAx v => { cpu with ah := v / 256, al := v % 256 }
  | .movEsAx => { cpu with es := cpu.ah * 256 + cpu.al }
  | .movAh v => { cpu with ah := v }
  | .movAl v => { cpu with al := v }
  | .movCh v => { cpu with ch := v }
  | .movDh v => { cpu with dh := v }
  | .movCl v => { cpu with cl := v }
  | .movDlDisk => { cpu with dl := disk }
  | .xorBx => { cpu with bx := 0 }
  | .int13 => int13 g image cpu

def run (code : List Instr) (cpu : Cpu) : Cpu := code.foldl (step g image disk) cpu

/-! ### The code -/

/-- The values of one read: `al` sectors from the cylinder `ch`, the head `dh` and the sector
`cl` on, to the segment `es`. -/
structure Read where
  es : ℕ
  al : ℕ
  ch : ℕ
  dh : ℕ
  cl : ℕ

/-- The instructions of a read, the same ones each time. -/
def Read.code (r : Read) : List Instr :=
  [.movAx r.es, .movEsAx, .movAh 0x02, .movAl r.al, .movCh r.ch, .movDh r.dh, .movCl r.cl,
    .movDlDisk, .xorBx, .int13]

/-- The reads of the default build. -/
def reads : List Read := [
  ⟨0x08E0, 54, 0, 0, 10⟩,
  ⟨0x0FA0, 63, 0, 1, 1⟩,
  ⟨0x1780, 63, 0, 2, 1⟩,
  ⟨0x1F60, 24, 0, 2, 1⟩] -- 3rd time

/-- The reads of the `CHS_LOAD` build. -/
def chsLoad : List Read := [
  ⟨0x08E0, 9, 0, 0, 10⟩,
  ⟨0x0A00, 18, 0, 1, 1⟩,
  ⟨0x0C40, 18, 1, 0, 1⟩,
  ⟨0x0E80, 18, 1, 1, 1⟩,
  ⟨0x10C0, 18, 2, 0, 1⟩,
  ⟨0x1300, 18, 2, 1, 1⟩,
  ⟨0x1540, 18, 3, 0, 1⟩,
  ⟨0x1780, 18, 3, 1, 1⟩,
  ⟨0x19C0, 18, 4, 0, 1⟩,
  ⟨0x1C00, 18, 4, 1, 1⟩]

/-- The part of `bootloader` that talks to the disk: a reset, and the reads. -/
def bootloader (chs : Bool) : List Instr :=
  [.movAh 0x00, .int13] ++ (if chs then chsLoad else reads).flatMap Read.code

/-! ### The image -/

/-- `utils/pad`: zeros up to a size. -/
def pad (n : ℕ) (file : List UInt8) : List UInt8 := file ++ List.replicate (n - file.length) 0

/-- `kernel.img`, made of `part1.bin`, `part2.bin` and `kernel.bin`, in whole sectors. -/
def kernelImg (part1 part2 kernel : List UInt8) : List UInt8 :=
  let img := part1 ++ pad 4096 part2 ++ kernel
  pad (512 * ((img.length + 511) / 512)) img

/-! ### One read after the other -/

variable {g image disk} {mem : ℕ → UInt8} {cpu : Cpu} {src dst n : ℕ}

lemma run_append (code code' : List Instr) (cpu : Cpu) :
    run g image disk (code ++ code') cpu = run g image disk code' (run g image disk code cpu) :=
  List.foldl_append

variable (g image disk) in
/-- What a read does to the memory. -/
lemma read_mem (r : Read) (hcl : r.cl < 64) (cpu : Cpu) :
    (run g image disk r.code cpu).mem =
      copySectors image (g.sector r.ch r.dh r.cl) r.al (r.es * 16) cpu.mem := by
  have he : r.es / 256 * 256 + r.es % 256 = r.es := Nat.div_add_mod' r.es 256
  have hq : r.cl / 64 = 0 := Nat.div_eq_of_lt hcl
  have hr : r.cl % 64 = r.cl := Nat.mod_eq_of_lt hcl
  simp only [run, Read.code, List.foldl_cons, List.foldl_nil, step, int13, if_true, he, hq, hr,
    Nat.mul_zero, Nat.add_zero]

/-- The first `n` bytes of the disk from byte `src` on are in memory from `dst` on. -/
def Copied (image mem : ℕ → UInt8) (src dst n : ℕ) : Prop :=
  ∀ i < n, mem (dst + i) = image (src + i)

/-- Each read goes on where the ones before it end, on the disk and in memory. -/
def Tiles (g : Geometry) (src dst : ℕ) : ℕ → List Read → Prop
  | _, [] => True
  | n, r :: rs => src + n = g.sector r.ch r.dh r.cl * 512 ∧ dst + n = r.es * 16 ∧ r.cl < 64 ∧
      Tiles g src dst (n + r.al * 512) rs

/-- The bytes that reads fetch. -/
def fetched (rs : List Read) : ℕ := (rs.map fun r => r.al * 512).sum

/-- A read that goes on where what has been copied ends. -/
lemma Copied.extend (h : Copied image mem src dst n) {lba k dest : ℕ} (hs : src + n = lba * 512)
    (hd : dst + n = dest) :
    Copied image (copySectors image lba k dest mem) src dst (n + k * 512) := by
  intro i hi
  unfold copySectors
  split
  · rw [← hs]; congr 1; omega
  · exact h i (by omega)

/-- **Tiling**: reads that tile copy one piece of the disk. -/
theorem Copied.tiles {rs : List Read} (h : Copied image cpu.mem src dst n)
    (ht : Tiles g src dst n rs) :
    Copied image (run g image disk (rs.flatMap Read.code) cpu).mem src dst (n + fetched rs) := by
  induction rs generalizing n cpu with
  | nil => exact h
  | cons r rs ih =>
    obtain ⟨hs, hd, hcl, ht⟩ := ht
    have h' : Copied image (run g image disk r.code cpu).mem src dst (n + r.al * 512) := by
      rw [read_mem g image disk r hcl]
      exact h.extend hs hd
    have := ih h' ht
    rw [List.flatMap_cons, run_append, fetched, List.map_cons, List.sum_cons, ← Nat.add_assoc]
    exact this

/-! ### The whole image -/

/-- The kernel is in memory where it is linked to. -/
def Loaded (cpu : Cpu) (kernel : List UInt8) : Prop := Stands cpu.mem 0x8E00 kernel

variable {part1 part2 kernel : List UInt8}

/-- The sectors of the kernel on the boot drive. -/
lemma image_kernel (h1 : part1.length = 512) (h2 : part2.length ≤ 4096)
    (hi : Stands image 0 (kernelImg part1 part2 kernel)) : Stands image (9 * 512) kernel := by
  have h := (stands_append.mp (stands_append.mp hi).1).2
  have hlen : 0 + (part1 ++ pad 4096 part2).length = 9 * 512 := by
    simp only [pad, List.length_append, List.length_replicate]
    omega
  rwa [hlen] at h

variable (g image disk)

/-- The reads of the floppy build put 171 sectors in their places. -/
lemma chs_mem (hg : g = ⟨2, 18⟩) (cpu : Cpu) :
    Copied image (run g image disk (bootloader true) cpu).mem (9 * 512) 0x8E00 (171 * 512) := by
  subst hg
  have ht : Tiles ⟨2, 18⟩ (9 * 512) 0x8E00 0 chsLoad := by simp [Tiles, chsLoad, Geometry.sector]
  rw [bootloader, run_append]
  exact Copied.tiles (fun i hi => absurd hi (Nat.not_lt_zero i)) ht

/-- Those of the default build put 180 sectors in their places, and then the sectors 117 to 140
of the kernel behind them. -/
lemma reads_mem (hg : g.spt = 63) (cpu : Cpu) :
    Copied image (run g image disk (bootloader false) cpu).mem (9 * 512) 0x8E00 (180 * 512) ∧
    Copied image (run g image disk (bootloader false) cpu).mem ((9 + 117) * 512)
      (0x8E00 + 180 * 512) (24 * 512) := by
  have ht : Tiles g (9 * 512) 0x8E00 0 (reads.take 3) := by
    simp [Tiles, reads, Geometry.sector, hg]
  have hsplit : (if false then chsLoad else reads).flatMap Read.code =
      (reads.take 3).flatMap Read.code ++ (reads.drop 3).flatMap Read.code := rfl
  have hfetched : 0 + fetched (reads.take 3) = 180 * 512 := by simp [fetched, reads]
  rw [bootloader, hsplit, ← List.append_assoc, run_append]
  generalize hc : run g image disk
    ([.movAh 0x00, .int13] ++ (reads.take 3).flatMap Read.code) cpu = c
  have h₃ : Copied image c.mem (9 * 512) 0x8E00 (180 * 512) := by
    rw [← hc, run_append, ← hfetched]
    exact Copied.tiles (fun i hi => absurd hi (Nat.not_lt_zero i)) ht
  have hm : (run g image disk ((reads.drop 3).flatMap Read.code) c).mem =
      copySectors image 126 24 (0x8E00 + 180 * 512) c.mem := by
    have hsector : g.sector 0 2 1 = 126 := by simp [Geometry.sector, hg]
    rw [← hsector]
    exact read_mem g image disk ⟨0x1F60, 24, 0, 2, 1⟩ (by simp only; omega) c
  rw [hm]
  refine ⟨fun i hi => ?_, fun i hi => ?_⟩
  · rw [copySectors, if_neg (by omega)]
    exact h₃ i hi
  · have hoff : 126 * 512 + (0x8E00 + 180 * 512 + i - (0x8E00 + 180 * 512)) =
        (9 + 117) * 512 + i := by omega
    rw [copySectors, if_pos (by omega), hoff]

/-- The sectors that are not read hold what the sectors that are read twice hold. -/
def Repeats (kernel : List UInt8) : Prop :=
  ∀ i, 180 * 512 ≤ i → i < kernel.length → kernel[i]? = kernel[i - 63 * 512]?

variable {g image disk}

lemma loaded_iff_repeats (hg : g.spt = 63) (himg : Stands image (9 * 512) kernel)
    (hlen : kernel.length ≤ 204 * 512) (cpu : Cpu) :
    Loaded (run g image disk (bootloader false) cpu) kernel ↔ Repeats kernel := by
  obtain ⟨hlow, hhigh⟩ := reads_mem g image disk hg cpu
  -- a byte that is not read is replaced by the one 63 sectors before it
  have high : ∀ i, 180 * 512 ≤ i → i < kernel.length →
      some ((run g image disk (bootloader false) cpu).mem (0x8E00 + i)) =
        kernel[i - 63 * 512]? := by
    intro i hi h
    obtain ⟨j, rfl⟩ := Nat.exists_eq_add_of_le hi
    have hsub : 180 * 512 + j - 63 * 512 = 117 * 512 + j := by omega
    have hlt : 117 * 512 + j < kernel.length := by omega
    have hd : 0x8E00 + (180 * 512 + j) = 0x8E00 + 180 * 512 + j := by omega
    have hs : (9 + 117) * 512 + j = 9 * 512 + (117 * 512 + j) := by omega
    rw [hsub, hd, hhigh j (by omega), hs, himg _ hlt, List.getElem?_eq_getElem hlt]
  constructor
  · intro h i hi hlt
    rw [← high i hi hlt, h i hlt, List.getElem?_eq_getElem hlt]
  · intro h i hlt
    rcases Nat.lt_or_ge i (180 * 512) with hl | hi
    · rw [hlow i hl, himg i hlt]
    · have := high i hi hlt
      rwa [← h i hi hlt, List.getElem?_eq_getElem hlt, Option.some.injEq] at this

/-- **Loading the kernel**: the floppy build puts it in memory whole. The default build does so
exactly when the kernel ends within its first 180 sectors, or is there with the repetition that
the fourth read makes. -/
theorem kernel_loaded (h1 : part1.length = 512) (h2 : part2.length ≤ 4096)
    (himg : Stands image 0 (kernelImg part1 part2 kernel)) (cpu : Cpu) :
    (g = ⟨2, 18⟩ → kernel.length ≤ 171 * 512 →
      Loaded (run g image disk (bootloader true) cpu) kernel) ∧
    (g.spt = 63 → 4 ≤ g.heads → kernel.length ≤ 204 * 512 →
      (Loaded (run g image disk (bootloader false) cpu) kernel ↔ Repeats kernel)) := by
  have hk := image_kernel h1 h2 himg
  refine ⟨fun hg hlen i hi => ?_, fun hg _ hlen => loaded_iff_repeats hg hk hlen cpu⟩
  rw [chs_mem g image disk hg cpu i (by omega), hk i hi]

/-- A boot drive with empty stages of the boot loader. -/
def bootDrive (kernel : List UInt8) : ℕ → UInt8 := fun i =>
  (kernelImg (List.replicate 512 0) [] kernel).getD i 0

lemma stands_bootDrive (kernel : List UInt8) :
    Stands (bootDrive kernel) 0 (kernelImg (List.replicate 512 0) [] kernel) :=
  stands_getD _

def powerOn : Cpu := ⟨0, 0, 0, 0, 0, 0, 0, 0, fun _ => 0⟩

/-- A kernel of three bytes. -/
theorem kernel_loaded_bytes : Loaded
    (run ⟨16, 63⟩ (bootDrive [1, 2, 3]) 0x80 (bootloader false) powerOn) [1, 2, 3] :=
  ((kernel_loaded List.length_replicate (Nat.zero_le _) (stands_bootDrive [1, 2, 3]) powerOn).2
    rfl (by simp only; omega) (by simp only [List.length_cons, List.length_nil]; omega)).mpr
      fun i hi h => by simp only [List.length_cons, List.length_nil] at h; omega

/-- A kernel that ends with the first byte of its sector 180. -/
def longKernel : List UInt8 := List.replicate (180 * 512) 0 ++ [1]

/-- That byte is not read: the byte 63 sectors before it is in its place. -/
theorem longKernel_unloaded : longKernel.length ≤ 204 * 512 ∧
    ¬ Loaded (run ⟨16, 63⟩ (bootDrive longKernel) 0x80 (bootloader false) powerOn) longKernel := by
  have hlen : longKernel.length = 180 * 512 + 1 := by
    rw [longKernel, List.length_append, List.length_replicate, List.length_singleton]
  have hk : Stands (bootDrive longKernel) (9 * 512) longKernel :=
    image_kernel List.length_replicate (Nat.zero_le _) (stands_bootDrive longKernel)
  refine ⟨by omega, fun h => ?_⟩
  have hr := (loaded_iff_repeats rfl hk (by omega) _).mp h (180 * 512) (Nat.le_refl _) (by omega)
  rw [longKernel, List.getElem?_append_right (by rw [List.length_replicate]),
    List.length_replicate, Nat.sub_self, List.getElem?_append_left
      (by rw [List.length_replicate]; omega),
    List.getElem?_replicate_of_lt (by omega)] at hr
  simp at hr

end Mono98.Bootloader
