import Mathlib.Algebra.BigOperators.Group.List.Basic
import Mono98.Packer

/-!
Looking up what has been packed.

The offset of a file is the size of the header and the table plus the lengths of the files
before it, and this is where the second pass of the packer puts its contents. Reading a disk
in memory gives the files back, the first of a name where names repeat.
-/

namespace Mono98.RomdiskLookup

open Mono98.Romdisk Mono98.Packer Mono98.Lib.Bytes

/-- A file given to the packer as `dir/base`. -/
structure PackedFile where
  dir : List UInt8
  base : List UInt8
  contents : List UInt8

namespace PackedFile

variable (f : PackedFile)

def path : List UInt8 := f.dir ++ 47 :: f.base

/-- The file is there, its path has one separator, and its name 1 to 63 letters. -/
structure Ok (fs : List UInt8 → Option (List UInt8)) : Prop where
  dir : 47 ∉ f.dir
  letters : ∀ c ∈ f.base, 65 ≤ c ∧ c ≤ 90
  base : 1 ≤ f.base.length ∧ f.base.length ≤ 63
  stat : fs f.path = some f.contents

/-- The file is there, and its path has one separator. -/
structure Given (fs : List UInt8 → Option (List UInt8)) : Prop where
  dir : 47 ∉ f.dir
  base : 47 ∉ f.base
  stat : fs f.path = some f.contents

end PackedFile

/-- The lengths of the contents. -/
def lengths (files : List PackedFile) : List ℕ := files.map fun f => f.contents.length

/-- A disk in memory from which each file can be read. -/
structure Disk (romdisk : ℕ → UInt8) (files : List PackedFile) : Prop where
  entries : entries romdisk = files.length
  file : ∀ i (hi : i < files.length), ∃ off,
    IsEntry romdisk (entryAt i) files[i].base off files[i].contents.length ∧
      Stands romdisk off files[i].contents

variable {fs : List UInt8 → Option (List UInt8)} {files : List PackedFile} {romdisk : ℕ → UInt8}
variable {f : PackedFile}

/-! ### What the packer writes -/

/-- The table of the files whose contents are put from `off` on. -/
def tableOf : ℕ → List PackedFile → List UInt8
  | _, [] => []
  | off, f :: files =>
    entryBytes f.base (off % 2 ^ 32) f.contents.length ++ tableOf (off + f.contents.length) files

/-- Where the packer takes the contents to begin: the number of entries is one of 16 bits. -/
def tableEnd (files : List PackedFile) : ℕ := headerSize + entrySize * (files.length % 2 ^ 16)

def imageOf (files : List PackedFile) : List UInt8 :=
  romdiskMagic ++ le 2 (files.length % 2 ^ 16) ++ tableOf (tableEnd files) files ++
    files.flatMap PackedFile.contents

/-- Where the contents of file `i` are behind a table that ends at `off`. -/
def start (off : ℕ) (files : List PackedFile) (i : ℕ) : ℕ := off + ((lengths files).take i).sum

@[simp] lemma start_zero (off : ℕ) : start off files 0 = off := by simp [start]

@[simp] lemma start_succ (off i : ℕ) :
    start off (f :: files) (i + 1) = start (off + f.contents.length) files i := by
  simp [start, lengths, Nat.add_assoc]

/-- A file begins where the one before it ends. -/
lemma start_next (off : ℕ) {i : ℕ} (hi : i < files.length) :
    start off files (i + 1) = start off files i + files[i].contents.length := by
  have hi' : i < (lengths files).length := by simpa [lengths] using hi
  rw [start, start, List.sum_take_succ _ _ hi', Nat.add_assoc]
  simp [lengths]

lemma start_mono (off : ℕ) (files : List PackedFile) {i j : ℕ} (h : i ≤ j) :
    start off files i ≤ start off files j := by
  obtain ⟨k, rfl⟩ := Nat.exists_eq_add_of_le h
  rw [start, start, List.take_add, List.sum_append]
  omega

/-- Every file ends by the end of the contents. -/
lemma start_add_le (off : ℕ) {i : ℕ} (hi : i < files.length) :
    start off files i + files[i].contents.length ≤ off + (lengths files).sum := by
  have hall : start off files files.length = off + (lengths files).sum := by
    rw [start, List.take_of_length_le (by simp [lengths])]
  rw [← start_next off hi, ← hall]
  exact start_mono off files hi

lemma letter_ne {c d : UInt8} (h : 65 ≤ c ∧ c ≤ 90) (hd : d < 65) : c ≠ d := by
  rintro rfl
  exact absurd hd (UInt8.not_lt.mpr h.1)

lemma PackedFile.Ok.given (h : f.Ok fs) : f.Given fs :=
  ⟨h.dir, fun hm => letter_ne (h.letters _ hm) (by decide) rfl, h.stat⟩

lemma PackedFile.Ok.sane (h : f.Ok fs) : basenameSanity f.base = true := by
  simp only [basenameSanity, List.all_eq_true, Bool.and_eq_true, decide_eq_true_eq]
  exact h.letters

lemma PackedFile.Ok.nonzero (h : f.Ok fs) : ∀ c ∈ f.base, c ≠ 0 :=
  fun _ hc => letter_ne (h.letters _ hc) (by decide)

/-- The first pass writes the table, unless a name is not made of letters. -/
lemma packTable_eq (h : ∀ f ∈ files, f.Given fs) (off : ℕ) :
    ∃ r, packTable fs (off % 2 ^ 32) (files.map PackedFile.path) = some r ∧
      (r.1 = true ↔ ∀ f ∈ files, basenameSanity f.base = true) ∧
      (r.1 = true → r.2 = tableOf off files) := by
  induction files generalizing off with
  | nil => exact ⟨(true, []), rfl, by simp, fun _ => rfl⟩
  | cons f files ih =>
    have hf := h f (by simp)
    obtain ⟨r, hr, hsane, htable⟩ := ih (fun g hg => h g (by simp [hg])) (off + f.contents.length)
    have hbase : basename f.path 47 = some f.base := basename_eq hf.dir hf.base
    rw [List.map_cons, packTable, hf.stat]
    simp only [hbase, Option.bind_some, Nat.mod_add_mod, hr, List.forall_mem_cons]
    by_cases hb : basenameSanity f.base = true
    · refine ⟨(r.1, entryBytes f.base (off % 2 ^ 32) f.contents.length ++ r.2), if_pos hb, ?_, ?_⟩
      · simp only [hsane, hb, true_and]
      · intro ht
        simp only at ht ⊢
        rw [tableOf, htable ht]
    · exact ⟨(false, []), if_neg hb, by simp [hb], by simp⟩

/-- The second pass writes the contents. -/
lemma packContents_eq (h : ∀ f ∈ files, f.Given fs) :
    packContents fs (files.map PackedFile.path) = some (files.flatMap PackedFile.contents) := by
  induction files with
  | nil => rfl
  | cons f files ih =>
    rw [List.map_cons, packContents, (h f (by simp)).stat, Option.bind_some, copyFile_eq,
      ih fun g hg => h g (by simp [hg])]
    rfl

/-- The packer writes the image, or gives up on a name. -/
theorem main_image (h : ∀ f ∈ files, f.Given fs) (hne : files ≠ []) :
    ((∀ f ∈ files, basenameSanity f.base = true) →
      main fs (files.map PackedFile.path) = some ⟨0, some (imageOf files)⟩) ∧
    ((∃ f ∈ files, basenameSanity f.base ≠ true) →
      ∃ out, main fs (files.map PackedFile.path) = some ⟨-1, out⟩) := by
  obtain ⟨r, hr, hsane, htable⟩ := packTable_eq h (tableEnd files)
  have hmain : main fs (files.map PackedFile.path) =
      if r.1 then some ⟨0, some (romdiskMagic ++ le 2 (files.length % 2 ^ 16) ++ r.2 ++
        files.flatMap PackedFile.contents)⟩
      else some ⟨-1, some (romdiskMagic ++ le 2 (files.length % 2 ^ 16) ++ r.2)⟩ := by
    rw [main, if_neg (by simpa using hne)]
    simp only [List.length_map, packContents_eq h, Option.map_some]
    exact congrArg (Option.bind · _) hr
  constructor
  · intro hs
    have ht := hsane.mpr hs
    rw [hmain, if_pos ht, htable ht, imageOf]
  · rintro ⟨f, hf, hb⟩
    have ht : r.1 ≠ true := fun ht => hb (hsane.mp ht f hf)
    exact ⟨_, by rw [hmain, if_neg ht]⟩

/-! ### Where it stands -/

@[simp] lemma tableOf_length (off : ℕ) (files : List PackedFile) :
    (tableOf off files).length = entrySize * files.length := by
  induction files generalizing off with
  | nil => rfl
  | cons f files ih =>
    rw [tableOf, List.length_append, entryBytes_length, ih, List.length_cons, Nat.mul_succ,
      Nat.add_comm]

lemma stands_table {p off : ℕ} (h : Stands romdisk p (tableOf off files)) {i : ℕ}
    (hi : i < files.length) : Stands romdisk (p + entrySize * i)
      (entryBytes files[i].base (start off files i % 2 ^ 32) files[i].contents.length) := by
  induction files generalizing p off i with
  | nil => exact absurd hi (Nat.not_lt_zero i)
  | cons f files ih =>
    obtain ⟨h₁, h₂⟩ := stands_append.mp h
    rw [entryBytes_length] at h₂
    cases i with
    | zero => simpa using h₁
    | succ i =>
      have he := ih h₂ (i := i) (by simpa using hi)
      rw [Nat.mul_succ, Nat.add_comm (entrySize * i), ← Nat.add_assoc]
      simpa using he

lemma stands_contents {p : ℕ} (h : Stands romdisk p (files.flatMap PackedFile.contents)) {i : ℕ}
    (hi : i < files.length) : Stands romdisk (start p files i) files[i].contents := by
  induction files generalizing p i with
  | nil => exact absurd hi (Nat.not_lt_zero i)
  | cons f files ih =>
    obtain ⟨h₁, h₂⟩ := stands_append.mp h
    cases i with
    | zero => simpa using h₁
    | succ i => simpa using ih h₂ (i := i) (by simpa using hi)

/-- The parts of an image in memory. -/
structure Image (romdisk : ℕ → UInt8) (files : List PackedFile) : Prop where
  entries : entries romdisk = files.length % 2 ^ 16
  entry : ∀ i (hi : i < files.length), Stands romdisk (entryAt i)
    (entryBytes files[i].base (start (tableEnd files) files i % 2 ^ 32) files[i].contents.length)
  contents : ∀ i (hi : i < files.length),
    Stands romdisk (start (headerSize + entrySize * files.length) files i) files[i].contents

lemma stands_image (h : Stands romdisk 0 (imageOf files)) : Image romdisk files := by
  obtain ⟨h, hdata⟩ := stands_append.mp h
  obtain ⟨h, htable⟩ := stands_append.mp h
  obtain ⟨-, hentries⟩ := stands_append.mp h
  have hheader : (romdiskMagic ++ le 2 (files.length % 2 ^ 16)).length = headerSize := by
    rw [List.length_append, le_length]; rfl
  rw [hheader, Nat.zero_add] at htable
  rw [List.length_append, hheader, tableOf_length, Nat.zero_add] at hdata
  refine ⟨?_, fun i hi => stands_table htable hi, fun i hi => stands_contents hdata hi⟩
  exact load_of_stands (by simpa [romdiskMagic] using hentries) (Nat.mod_lt _ (by omega))

/-- The fields of an entry, as long as the number of entries fits its field. -/
lemma Image.fields (h : Image romdisk files) (hn : files.length ≤ 65535) {i : ℕ}
    (hi : i < files.length) :
    offset romdisk (entryAt i) =
      start (headerSize + entrySize * files.length) files i % 2 ^ 32 ∧
    length romdisk (entryAt i) = files[i].contents.length % 2 ^ 32 ∧
    Stands romdisk (entryAt i) (nameField files[i].base) := by
  have hend : tableEnd files = headerSize + entrySize * files.length := by
    rw [tableEnd, Nat.mod_eq_of_lt (by omega)]
  have h := h.entry i hi
  rw [hend] at h
  obtain ⟨h, hl⟩ := stands_append.mp h
  obtain ⟨hname, ho⟩ := stands_append.mp h
  simp only [List.length_append, nameField_length, le_length] at ho hl
  refine ⟨?_, load_le hl, hname⟩
  rw [offset, load_le ho]
  exact Nat.mod_mod _ _

/-- The image of files that the format has room for is a disk with them. -/
theorem main_disk (h : ∀ f ∈ files, f.Ok fs) (hn : 1 ≤ files.length ∧ files.length ≤ 65535)
    (hsize : headerSize + entrySize * files.length + (lengths files).sum < 2 ^ 32) :
    ∃ image, main fs (files.map PackedFile.path) = some ⟨0, some image⟩ ∧
      ∀ romdisk, Stands romdisk 0 image → Disk romdisk files := by
  have hne : files ≠ [] := List.length_pos_iff.mp hn.1
  refine ⟨imageOf files, (main_image (fun f hf => (h f hf).given) hne).1 fun f hf => (h f hf).sane,
    fun romdisk hs => ?_⟩
  obtain ⟨hentries, hentry, hcontents⟩ := stands_image hs
  have hmod : files.length % 2 ^ 16 = files.length := Nat.mod_eq_of_lt (by omega)
  refine ⟨hentries.trans hmod, fun i hi => ⟨_, ?_, hcontents i hi⟩⟩
  have hf := h _ (List.getElem_mem hi)
  have hb := hf.base.2
  have hlast := start_add_le (headerSize + entrySize * files.length) hi
  have he := hentry i hi
  rw [tableEnd, hmod, Nat.mod_eq_of_lt (by omega)] at he
  exact isEntry_of_stands he (by omega) hf.nonzero (by omega) (by omega)

/-! ### Reading it back -/

/-- The answer for a name: the contents of the first file of that name, or no entry. -/
def Answers (romdisk : ℕ → UInt8) (files : List PackedFile) (name : List UInt8)
    (r : RomdiskFile) : Prop :=
  (∃ i, ∃ hi : i < files.length, files[i].base = name ∧
    (∀ j (hj : j < i), files[j].base ≠ name) ∧ r.noent = 0 ∧
      r.length = files[i].contents.length ∧ Stands romdisk r.file files[i].contents) ∨
  (∀ f ∈ files, f.base ≠ name) ∧ r.noent = 1

/-- **Looking up a name** on a disk. -/
theorem Disk.lookup (hd : Disk romdisk files) (hb : ∀ f ∈ files, f.base.length ≤ 63)
    {str : ℕ → UInt8} {name : List UInt8} (hstr : IsString str 0 name) :
    ∃ r, getRomdiskFile romdisk str = some r ∧ Answers romdisk files name r := by
  -- what the table says about entry `i`
  set names : ℕ → List UInt8 := fun i => (files[i]?.map PackedFile.base).getD [] with hnames
  have hname : ∀ i (hi : i < files.length), names i = files[i].base := fun i hi => by
    simp [hnames, hi]
  have hentry : ∀ i ∈ List.range files.length, IsEntry romdisk (entryAt i) (names i)
      (offset romdisk (entryAt i)) (length romdisk (entryAt i)) := by
    intro i hi
    have hi := List.mem_range.mp hi
    obtain ⟨off, he, -⟩ := hd.file i hi
    rw [hname i hi]
    exact ⟨he.name, rfl, rfl⟩
  have hlen : ∀ i ∈ List.range files.length, (names i).length < 2 ^ 32 := by
    intro i hi
    have hi := List.mem_range.mp hi
    have := hb _ (List.getElem_mem hi)
    rw [hname i hi]
    omega
  refine ⟨_, by rw [getRomdiskFile, hd.entries]; exact findEntry_spec hstr hentry hlen, ?_⟩
  cases hf : (List.range files.length).find? fun i => names i = name with
  | none =>
    refine Or.inr ⟨fun f hmem => ?_, rfl⟩
    obtain ⟨i, hi, rfl⟩ := List.mem_iff_getElem.mp hmem
    have := List.find?_range_eq_none.mp hf i hi
    simpa [hname i hi] using this
  | some i =>
    obtain ⟨he, hi, hfirst⟩ := List.find?_range_eq_some.mp hf
    have hi := List.mem_range.mp hi
    obtain ⟨off, hoff, hstands⟩ := hd.file i hi
    refine Or.inl ⟨i, hi, by simpa [hname i hi] using he, fun j hj => ?_, rfl, hoff.length, ?_⟩
    · have := hfirst j hj
      simpa [hname j (by omega)] using this
    · show Stands romdisk (offset romdisk (entryAt i)) _
      rw [hoff.offset]
      exact hstands

/-- **Lookup undoes packing.** The packer writes an image; in memory it lists its files in the
order of the arguments, and every name is answered with the first file of that name. -/
theorem romdisk_lookup (h : ∀ f ∈ files, f.Ok fs) (hn : 1 ≤ files.length ∧ files.length ≤ 65535)
    (hsize : headerSize + entrySize * files.length + (lengths files).sum < 2 ^ 32) :
    ∃ image, main fs (files.map PackedFile.path) = some ⟨0, some image⟩ ∧
      ∀ romdisk, Stands romdisk 0 image →
        ((listRomdisk romdisk).length = files.length ∧
          ∀ i (hi : i < files.length), ∃ p, (listRomdisk romdisk)[i]? = some p ∧
            IsString (filename romdisk p) 0 files[i].base ∧
              length romdisk p = files[i].contents.length) ∧
        ∀ str name, IsString str 0 name →
          ∃ r, getRomdiskFile romdisk str = some r ∧ Answers romdisk files name r := by
  obtain ⟨image, him, hdisk⟩ := main_disk h hn hsize
  refine ⟨image, him, fun romdisk hs => ?_⟩
  have hd := hdisk romdisk hs
  refine ⟨⟨by simp [listRomdisk, hd.entries], fun i hi => ?_⟩, fun str name hstr =>
    hd.lookup (fun f hf => (h f hf).base.2) hstr⟩
  obtain ⟨off, he, -⟩ := hd.file i hi
  exact ⟨entryAt i, by simp [listRomdisk, hd.entries, hi], he.name, he.length⟩

/-- Two files of one name, the second of them empty. -/
def twoFiles : List PackedFile := [⟨[97], [65, 66], [1, 2, 3]⟩, ⟨[98], [65, 66], []⟩]

/-- The file system that has the two files. -/
def twoFilesAt (path : List UInt8) : Option (List UInt8) :=
  (twoFiles.find? fun f => f.path = path).map PackedFile.contents

theorem romdisk_lookup_two : ∃ image,
    main twoFilesAt (twoFiles.map PackedFile.path) = some ⟨0, some image⟩ ∧
      ∀ romdisk, Stands romdisk 0 image → (listRomdisk romdisk).length = 2 := by
  have hok : ∀ f ∈ twoFiles, f.Ok twoFilesAt := by
    simp only [twoFiles, List.mem_cons, List.not_mem_nil, or_false]
    rintro f (rfl | rfl) <;> exact ⟨by simp, by simp, by simp, rfl⟩
  obtain ⟨image, him, h⟩ := romdisk_lookup hok (by decide) (by decide)
  exact ⟨image, him, fun romdisk hs => (h romdisk hs).1.1⟩

end Mono98.RomdiskLookup
