import Mono98.CommandRun

/-!
Reading a ROMDISK on the host.

With `--read` the packer maps an image into memory, and goes over it with the functions that the
kernel has too. It does not ask whether the image is one: `valid_romdisk` is there for it, and is
called by nobody. What it prints goes out in two streams, the names through the buffer of `stdio`
and the contents of `HELLO` past it. In which order the two come to the same file is not said here:
with a buffer that is written at the end, the contents come first.
-/

namespace Mono98.PackerRead

open Mono98.Strings Mono98.Romdisk Mono98.Packer Mono98.RomdiskLookup Mono98.Command
open Mono98.CommandRun Mono98.Lib.Bytes Mono98.Lib.Fold

/-- The string at a pointer, if it ends among `n` bytes. -/
def stringAt : ℕ → (ℕ → UInt8) → Option (List UInt8)
  | 0, _ => none
  | n + 1, ptr =>
    if ptr 0 = 0 then some [] else (stringAt n fun i => ptr (i + 1)).map fun s => ptr 0 :: s

/-- The line that `puts` prints, in an address space of 64 bits. -/
def readFiles (romdisk : ℕ → UInt8) (entry : ℕ) : Option (List UInt8) :=
  (stringAt (2 ^ 64) (filename romdisk entry)).map fun s => s ++ [10]

/-- The answer is no where the magic is right, and yes where it is not. -/
def validRomdisk (romdisk : ℕ → UInt8) : Bool :=
  memcmp romdisk (fun i => romdiskMagic.getD i 0) 7 ≠ 0

/-- The exit code, and the two streams. -/
structure Reading where
  code : ℤ
  listed : List UInt8
  written : List UInt8

/-- `main` with `--read` and an input file. Behind the file the mapping goes on with `rest`;
nothing can be mapped of an empty file, whose header is then behind a pointer to nowhere. -/
def readMain (fs : List UInt8 → Option (List UInt8)) (rest : ℕ → UInt8) (input : List UInt8) :
    Option Reading :=
  match fs input with
  | none => some ⟨1, [], []⟩
  | some [] => none
  | some (b :: image) => do
    let file := fun i => (b :: image).getD i (rest i)
    let lines ← (listRomdisk file).mapM (readFiles file)
    let f ← getRomdiskFile file (literal "HELLO")
    some ⟨0, lines.flatten, (List.range f.length).map fun i => file (f.file + i)⟩

/-! ### What is read -/

variable {fs fs' : List UInt8 → Option (List UInt8)} {files : List PackedFile}
variable {romdisk rest : ℕ → UInt8} {s input image : List UInt8}

lemma stringAt_eq {ptr : ℕ → UInt8} (h : IsString ptr 0 s) {n : ℕ} (hlen : s.length < n) :
    stringAt n ptr = some s := by
  induction s generalizing ptr n with
  | nil =>
    obtain ⟨n, rfl⟩ := Nat.exists_eq_succ_of_ne_zero (Nat.ne_zero_of_lt hlen)
    exact if_pos h.ends
  | cons c s ih =>
    obtain ⟨n, rfl⟩ := Nat.exists_eq_succ_of_ne_zero (Nat.ne_zero_of_lt hlen)
    have hc : ptr 0 = c := h.stands 0 (Nat.succ_pos _)
    have hne : ptr 0 ≠ 0 := by
      rw [hc]
      exact h.nonzero c List.mem_cons_self
    have htail : IsString (fun i => ptr (i + 1)) 0 s := by
      refine ⟨fun j hj => ?_, fun d hd => h.nonzero d (List.mem_cons_of_mem c hd), ?_⟩
      · rw [Nat.zero_add, ← Nat.zero_add (j + 1)]
        exact h.stands (j + 1) (Nat.succ_lt_succ hj)
      · have hends := h.ends
        rwa [List.length_cons, ← Nat.add_assoc] at hends
    rw [stringAt, if_neg hne, ih htail (Nat.lt_of_succ_lt_succ hlen), hc]
    rfl

/-- The names of a disk. -/
lemma mapM_readFiles (hd : Disk romdisk files) (hb : ∀ f ∈ files, f.base.length ≤ 63) :
    (listRomdisk romdisk).mapM (readFiles romdisk) =
      some (files.map fun f => f.base ++ [10]) := by
  have hline : ∀ i ∈ List.range files.length, readFiles romdisk (entryAt i) =
      some ((files.map fun f => f.base ++ [10]).getD i []) := by
    intro i hi
    have hi := List.mem_range.mp hi
    obtain ⟨off, he, -⟩ := hd.file i hi
    have hlen := hb _ (List.getElem_mem hi)
    rw [readFiles, stringAt_eq he.name (by omega)]
    simp [hi]
  rw [listRomdisk, hd.entries, List.mapM_map]
  refine (mapM_some hline).trans (congrArg some ?_)
  refine List.ext_getElem (by simp) fun i h₁ h₂ => ?_
  rw [List.getElem_map, List.getElem_range, List.getD_eq_getElem _ _ h₂]

/-- The bytes of a file. -/
lemma map_contents {p : ℕ} (h : Stands romdisk p s) :
    ((List.range s.length).map fun i => romdisk (p + i)) = s := by
  refine List.ext_getElem (by simp) fun i h₁ h₂ => ?_
  rw [List.getElem_map, List.getElem_range]
  exact h i h₂

/-- The answer for a name that is not there has no bytes. -/
lemma findEntry_cases {name : ℕ → UInt8} {is : List ℕ} {r : RomdiskFile}
    (h : findEntry romdisk name is = some r) : r.noent = 0 ∨ r = ⟨0, 0, 1⟩ := by
  induction is with
  | nil => exact Or.inr (Option.some.inj h).symm
  | cons i is ih =>
    obtain ⟨d, -, h⟩ := Option.bind_eq_some_iff.mp h
    split at h
    · exact Or.inl (Option.some.inj h ▸ rfl)
    · exact ih h

/-- `valid_romdisk` says no to what has the magic, and to nothing else. -/
lemma validRomdisk_iff : validRomdisk romdisk = false ↔ Stands romdisk 0 romdiskMagic := by
  simp only [validRomdisk, ne_eq, decide_eq_false_iff_not, not_not, memcmp_eq_zero]
  refine forall_congr' fun i => ⟨fun h hi => ?_, fun h hi => ?_⟩
  · rw [Nat.zero_add, h hi, List.getD_eq_getElem _ _ hi]
  · rw [List.getD_eq_getElem _ _ hi, ← h hi, Nat.zero_add]

/-- What a packed image holds. -/
lemma readMain_packed (hp : Packed fs files romdisk)
    (himage : fs' input = some image) (hne : image ≠ [])
    (hfile : ∀ i, romdisk i = image.getD i (rest i)) :
    readMain fs' rest input = some ⟨0, files.flatMap fun f => f.base ++ [10],
      ((fileNamed files (ascii "HELLO")).map PackedFile.contents).getD []⟩ := by
  obtain ⟨r, hr, hanswer⟩ := hp.lookup (isString_literal "HELLO" (by simp [ascii]))
  have hlines := mapM_readFiles hp.disk fun f hf => (hp.ok f hf).base.2
  have hwritten : ((List.range r.length).map fun i => romdisk (r.file + i)) =
      ((fileNamed files (ascii "HELLO")).map PackedFile.contents).getD [] := by
    cases hf : fileNamed files (ascii "HELLO") with
    | some f =>
      rw [hf] at hanswer
      obtain ⟨-, hlen, hs⟩ := hanswer
      rw [hlen]
      exact map_contents hs
    | none =>
      rw [hf] at hanswer
      rcases findEntry_cases hr with h0 | rfl
      · exact absurd (hanswer.symm.trans h0) (by decide)
      · rfl
  obtain ⟨b, bytes, rfl⟩ := List.exists_cons_of_ne_nil hne
  obtain rfl : romdisk = fun i => (b :: bytes).getD i (rest i) := funext hfile
  simp only [readMain, himage, hlines, hr, Option.bind_eq_bind, Option.bind_some, hwritten,
    List.flatMap_def]

/-- **Reading back what has been packed.** The packer writes an image that `valid_romdisk` rejects;
with `--read` it prints on one stream the names of the files in the order of the arguments, and on
the other one the contents of the first `HELLO`, whatever the mapping has behind the image. -/
theorem read_back (h : ∀ f ∈ files, f.Ok fs) (hn : 1 ≤ files.length ∧ files.length ≤ 65535)
    (hsize : headerSize + entrySize * files.length + (lengths files).sum < 2 ^ 32) :
    ∃ image, main fs (files.map PackedFile.path) = some ⟨0, some image⟩ ∧
      ∀ fs' rest input, fs' input = some image →
        validRomdisk (fun i => image.getD i (rest i)) = false ∧
        readMain fs' rest input = some ⟨0, files.flatMap fun f => f.base ++ [10],
          ((fileNamed files (ascii "HELLO")).map PackedFile.contents).getD []⟩ := by
  have hne : files ≠ [] := List.length_pos_iff.mp hn.1
  have him := (main_image (fun f hf => (h f hf).given) hne).1 fun f hf => (h f hf).sane
  have hcons : imageOf files ≠ [] := by simp [imageOf, romdiskMagic]
  refine ⟨imageOf files, him, fun fs' rest input hinput => ?_⟩
  have hs : Stands (fun i => (imageOf files).getD i (rest i)) 0 (imageOf files) := by
    intro i hi
    rw [Nat.zero_add]
    exact List.getD_eq_getElem _ _ hi
  refine ⟨validRomdisk_iff.mpr ?_,
    readMain_packed ⟨h, hn, hsize, _, him, hs⟩ hinput hcons fun _ => rfl⟩
  simp only [imageOf, List.append_assoc, stands_append] at hs
  exact hs.1

/-- Two files, the second one `HELLO`. -/
def helloFiles : List PackedFile :=
  [⟨[97], ascii "RUN", [0x50, 0x5C, 0xDE]⟩, ⟨[98], ascii "HELLO", [104, 105]⟩]

def helloFilesAt (path : List UInt8) : Option (List UInt8) :=
  (helloFiles.find? fun f => f.path = path).map PackedFile.contents

theorem read_back_hello : ∃ image, readMain (fun _ => some image) (fun _ => 7) [] =
    some ⟨0, ascii "RUN\nHELLO\n", [104, 105]⟩ := by
  have hok : ∀ f ∈ helloFiles, f.Ok helloFilesAt := by
    simp only [helloFiles, List.mem_cons, List.not_mem_nil, or_false]
    rintro f (rfl | rfl) <;> exact ⟨by simp, by simp [ascii], by simp [ascii], rfl⟩
  obtain ⟨image, -, h⟩ := read_back hok (by decide) (by decide +kernel)
  exact ⟨image, (h (fun _ => some image) (fun _ => 7) [] rfl).2⟩

end Mono98.PackerRead
