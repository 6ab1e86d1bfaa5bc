import Mono98.RomdiskLookup

/-!
What the packer does not check.

The packer looks at the letters of a name and at nothing else, while a name has 64 bytes of an
entry, the number of entries 16 bits, and offsets and lengths 32. An input beyond these limits
is packed all the same, into an image that is not well formed.
-/

namespace Mono98.PackerLimits

open Mono98.Romdisk Mono98.Packer Mono98.RomdiskLookup Mono98.Lib.Bytes

variable {fs : List UInt8 → Option (List UInt8)} {files : List PackedFile}

/-- The bytes of an image, as memory. -/
def memory (image : List UInt8) : ℕ → UInt8 := fun i => image.getD i 0

/-- The interval of the image that entry `i` names. -/
def Interval (image : List UInt8) (i a : ℕ) : Prop :=
  let romdisk := memory image
  offset romdisk (entryAt i) ≤ a ∧
    a < offset romdisk (entryAt i) + length romdisk (entryAt i)

/-- The image has one entry for each file, with its whole name and a terminator, and the
intervals of the entries lie behind the table, within the image and apart from each other, and
hold the files. -/
structure WellFormed (image : List UInt8) (files : List PackedFile) : Prop where
  entries : entries (memory image) = files.length
  name : ∀ i (hi : i < files.length), files[i].base.length < 64 ∧
    IsString (filename (memory image) (entryAt i)) 0 files[i].base
  inside : ∀ i < files.length,
    headerSize + entrySize * files.length ≤ offset (memory image) (entryAt i) ∧
      offset (memory image) (entryAt i) + length (memory image) (entryAt i) ≤ image.length
  disjoint : ∀ i j, i < j → j < files.length → ∀ a, ¬ (Interval image i a ∧ Interval image j a)
  contents : ∀ i (hi : i < files.length),
    length (memory image) (entryAt i) = files[i].contents.length ∧
      Stands (memory image) (offset (memory image) (entryAt i)) files[i].contents

/-- Where file `i` begins, counted without overflow. -/
def begins (files : List PackedFile) (i : ℕ) : ℕ :=
  start (headerSize + entrySize * files.length) files i

/-- The format has room for the files. A file without contents may begin beyond the range of
the offsets, if its offset wraps to a place behind the table. -/
structure Fits (files : List PackedFile) : Prop where
  count : files.length ≤ 65535
  names : ∀ f ∈ files, f.base.length ≤ 63
  sizes : ∀ f ∈ files, f.contents.length < 2 ^ 32
  offsets : ∀ i (hi : i < files.length), begins files i < 2 ^ 32 ∨
    files[i].contents = [] ∧ headerSize + entrySize * files.length ≤ begins files i % 2 ^ 32

/-! ### The entries of an image -/

lemma stands_memory (image : List UInt8) : Stands (memory image) 0 image := stands_getD image

/-- What is read back of an entry. -/
lemma entry_fields (hn : files.length ≤ 65535) {i : ℕ} (hi : i < files.length) :
    offset (memory (imageOf files)) (entryAt i) = begins files i % 2 ^ 32 ∧
    length (memory (imageOf files)) (entryAt i) = files[i].contents.length % 2 ^ 32 ∧
    Stands (memory (imageOf files)) (entryAt i) (nameField files[i].base) :=
  (stands_image (stands_memory (imageOf files))).fields hn hi

lemma imageOf_length (files : List PackedFile) :
    (imageOf files).length = headerSize + entrySize * files.length + (lengths files).sum := by
  have hdata : (files.flatMap PackedFile.contents).length = (lengths files).sum := by
    rw [List.length_flatMap, lengths]
  simp only [imageOf, List.length_append, le_length, tableOf_length, hdata, romdiskMagic,
    List.length_cons, List.length_nil, headerSize]

/-- A place in the contents before file `j` belongs to an earlier file. -/
lemma file_at (off : ℕ) {j a : ℕ} (hj : j ≤ files.length) (h₁ : off ≤ a)
    (h₂ : a < start off files j) : ∃ i, ∃ hi : i < files.length, i < j ∧ start off files i ≤ a ∧
      a < start off files i + files[i].contents.length := by
  induction j with
  | zero => rw [start_zero] at h₂; omega
  | succ j ih =>
    rcases Nat.lt_or_ge a (start off files j) with hlt | hge
    · obtain ⟨i, hi, hij, h⟩ := ih (by omega) hlt
      exact ⟨i, hi, by omega, h⟩
    · rw [start_next off hj] at h₂
      exact ⟨j, hj, Nat.lt_succ_self j, hge, h₂⟩

/-! ### What fits is well formed -/

lemma nonzero_of_sane {base : List UInt8} (h : basenameSanity base = true) : ∀ c ∈ base, c ≠ 0 := by
  simp only [basenameSanity, List.all_eq_true, Bool.and_eq_true, decide_eq_true_eq] at h
  exact fun c hc => letter_ne (h c hc) (by decide)

/-- The interval of a file that fits: it begins where the file does, or it is empty. -/
lemma interval_of_fits (h : Fits files) {i : ℕ} (hi : i < files.length) {a : ℕ}
    (ha : Interval (imageOf files) i a) :
    begins files i ≤ a ∧ a < begins files i + files[i].contents.length := by
  obtain ⟨ho, hl, -⟩ := entry_fields h.count hi
  rw [Nat.mod_eq_of_lt (h.sizes _ (List.getElem_mem hi))] at hl
  simp only [Interval, ho, hl] at ha
  rcases h.offsets i hi with hlt | ⟨hnil, -⟩
  · rwa [Nat.mod_eq_of_lt hlt] at ha
  · rw [hnil, List.length_nil] at ha
    omega

lemma wellFormed_of_fits (h : Fits files) (hs : ∀ f ∈ files, basenameSanity f.base = true) :
    WellFormed (imageOf files) files := by
  obtain ⟨hentries, -, hcontents⟩ := stands_image (stands_memory (imageOf files))
  have hlen : ∀ i (hi : i < files.length),
      length (memory (imageOf files)) (entryAt i) = files[i].contents.length := fun i hi => by
    rw [(entry_fields h.count hi).2.1, Nat.mod_eq_of_lt (h.sizes _ (List.getElem_mem hi))]
  refine ⟨?_, fun i hi => ?_, fun i hi => ?_, fun i j hij hj a ⟨h₁, h₂⟩ => ?_, fun i hi =>
    ⟨hlen i hi, ?_⟩⟩
  · have hc := h.count
    rw [hentries, Nat.mod_eq_of_lt (by omega)]
  · -- the name
    have hmem := List.getElem_mem hi
    have hb := h.names _ hmem
    have hname := (entry_fields h.count hi).2.2
    rw [nameField, List.take_of_length_le (by omega)] at hname
    have hstr := isString_of_padded hname (by omega) (nonzero_of_sane (hs _ hmem))
    exact ⟨by omega, hstr.from_start⟩
  · -- the interval lies in the image
    have hend := start_add_le (headerSize + entrySize * files.length) hi
    rw [(entry_fields h.count hi).1, hlen i hi, imageOf_length]
    rcases h.offsets i hi with hlt | ⟨hnil, hle⟩
    · rw [Nat.mod_eq_of_lt hlt]
      exact ⟨Nat.le_add_right _ _, hend⟩
    · have hmod := Nat.mod_le (begins files i) (2 ^ 32)
      simp only [hnil, List.length_nil] at hend ⊢
      exact ⟨hle, Nat.le_trans hmod hend⟩
  · -- two files do not overlap
    have hi := interval_of_fits h (Nat.lt_trans hij hj) h₁
    have hj' := interval_of_fits h hj h₂
    have hnext := start_next (headerSize + entrySize * files.length) (Nat.lt_trans hij hj)
    have hmono : begins files (i + 1) ≤ begins files j := start_mono _ files hij
    simp only [begins] at hi hj' hmono
    omega
  · -- the contents
    rw [(entry_fields h.count hi).1]
    rcases h.offsets i hi with hlt | ⟨hnil, -⟩
    · rw [Nat.mod_eq_of_lt hlt]
      exact hcontents i hi
    · rw [hnil]
      exact stands_nil _ _

/-! ### What is well formed fits -/

lemma fits_of_wellFormed (h : WellFormed (imageOf files) files) : Fits files := by
  have hcount : files.length ≤ 65535 := by
    have he := (stands_image (stands_memory (imageOf files))).entries
    rw [h.entries] at he
    omega
  have hsize : ∀ i (hi : i < files.length), files[i].contents.length < 2 ^ 32 := fun i hi => by
    have hl := (entry_fields hcount hi).2.1
    rw [(h.contents i hi).1] at hl
    omega
  refine ⟨hcount, fun f hf => ?_, fun f hf => ?_, fun i hi => ?_⟩
  · obtain ⟨i, hi, rfl⟩ := List.mem_iff_getElem.mp hf
    have := (h.name i hi).1
    omega
  · obtain ⟨i, hi, rfl⟩ := List.mem_iff_getElem.mp hf
    exact hsize i hi
  · refine or_iff_not_imp_left.mpr fun hover => ?_
    obtain ⟨ho, hl, -⟩ := entry_fields hcount hi
    have hin := (h.inside i hi).1
    rw [ho] at hin
    refine ⟨?_, hin⟩
    by_contra hne
    have hpos := List.length_pos_iff.mpr hne
    -- the wrapped offset falls on an earlier file
    obtain ⟨j, hj, hji, h₁, h₂⟩ := file_at (headerSize + entrySize * files.length) hi.le hin
      (by
        have := Nat.mod_lt (begins files i) (show 0 < 2 ^ 32 by omega)
        exact Nat.lt_of_lt_of_le this (Nat.le_of_not_lt hover))
    obtain ⟨hoj, hlj, -⟩ := entry_fields hcount hj
    have hmod := Nat.mod_lt (begins files i) (show 0 < 2 ^ 32 by omega)
    have hbj : begins files j ≤ begins files i % 2 ^ 32 := h₁
    rw [Nat.mod_eq_of_lt (by omega)] at hoj
    rw [Nat.mod_eq_of_lt (hsize j hj)] at hlj
    rw [Nat.mod_eq_of_lt (hsize i hi)] at hl
    refine h.disjoint j i hji hi (begins files i % 2 ^ 32) ⟨?_, ?_⟩
    · simp only [Interval, hoj, hlj]
      exact ⟨h₁, h₂⟩
    · simp only [Interval, ho, hl]
      omega

/-! ### The packer -/

/-- When the packer reports success, the image it has written is well formed. -/
def Honest (fs : List UInt8 → Option (List UInt8)) (files : List PackedFile) : Prop :=
  ∀ e, main fs (files.map PackedFile.path) = some e → e.code = 0 →
    ∃ image, e.output = some image ∧ WellFormed image files

/-- **The limits of the packer**: on files that are there it reports success with a well-formed
image or not at all, exactly when some name is not made of letters or the format has room for
the files. -/
theorem packer_honest (h : ∀ f ∈ files, f.Given fs) :
    Honest fs files ↔ ((∀ f ∈ files, basenameSanity f.base = true) → Fits files) := by
  by_cases hne : files = []
  · subst hne
    refine ⟨fun _ _ => ⟨by simp, by simp, by simp, fun i hi => absurd hi (Nat.not_lt_zero i)⟩,
      fun _ e he h0 => ?_⟩
    obtain rfl := Option.some.inj he
    simp at h0
  obtain ⟨hgood, hbad⟩ := main_image h hne
  constructor
  · intro hh hs
    obtain ⟨image, himage, hw⟩ := hh _ (hgood hs) rfl
    obtain rfl := Option.some.inj himage
    exact fits_of_wellFormed hw
  · intro hfit e he h0
    by_cases hs : ∀ f ∈ files, basenameSanity f.base = true
    · obtain rfl := Option.some.inj (he.symm.trans (hgood hs))
      exact ⟨_, rfl, wellFormed_of_fits (hfit hs) hs⟩
    · -- a name that is not made of letters is reported
      push Not at hs
      obtain ⟨out, hout⟩ := hbad hs
      obtain rfl := Option.some.inj (he.symm.trans hout)
      simp at h0

/-- A file with a byte. -/
def shortName : List PackedFile := [⟨[97], [65], [1]⟩]

/-- A file whose name is as long as its field. -/
def longName : List PackedFile := [⟨[97], List.replicate 64 65, []⟩]

theorem packer_honest_short : Honest (fun _ => some [1]) shortName ↔
    ((∀ f ∈ shortName, basenameSanity f.base = true) → Fits shortName) :=
  packer_honest fun f hf => by
    rw [List.mem_singleton.mp hf]
    exact ⟨by simp, by simp, rfl⟩

/-- The name of 64 letters is packed without a terminator. -/
theorem longName_dishonest : (longName.map PackedFile.base).Nodup ∧
    (∀ f ∈ longName, f.Given fun _ => some []) ∧ ¬ Honest (fun _ => some []) longName := by
  have hgiven : ∀ f ∈ longName, f.Given fun _ => some [] := fun f hf => by
    rw [List.mem_singleton.mp hf]
    exact ⟨by simp, by simp, rfl⟩
  refine ⟨by simp [longName], hgiven, fun hh => ?_⟩
  have hmain := (main_image hgiven (by simp [longName])).1 fun f hf => by
    rw [List.mem_singleton.mp hf]
    decide
  obtain ⟨image, himage, hw⟩ := hh _ hmain rfl
  obtain rfl := Option.some.inj himage
  have hname := (fits_of_wellFormed hw).names _ (List.mem_singleton_self _)
  simp at hname

end Mono98.PackerLimits
