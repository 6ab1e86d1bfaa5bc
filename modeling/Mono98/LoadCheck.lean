import Mono98.CommandRun

/-!
What the loader takes for a program.

The check compares three bytes at the pointer and does not look at the length. Files are packed
without a gap, so that for a shorter file the bytes of the next one take part in the decision.
-/

namespace Mono98.LoadCheck

open Mono98.Strings Mono98.Process Mono98.Romdisk Mono98.Packer Mono98.RomdiskLookup
open Mono98.CommandRun Mono98.Lib.Bytes

/-- An image in memory that the packer has written, for as many files and bytes as the format
has room for. -/
structure Written (fs : List UInt8 → Option (List UInt8)) (files : List PackedFile)
    (romdisk : ℕ → UInt8) : Prop where
  given : ∀ f ∈ files, f.Given fs
  count : 1 ≤ files.length ∧ files.length ≤ 65535
  size : headerSize + entrySize * files.length + (lengths files).sum < 2 ^ 32
  image : ∃ image, main fs (files.map PackedFile.path) = some ⟨0, some image⟩ ∧
    Stands romdisk 0 image

variable {fs : List UInt8 → Option (List UInt8)} {files : List PackedFile} {romdisk : ℕ → UInt8}
variable {i : ℕ}

/-! ### Where the files are -/

lemma Written.stands (h : Written fs files romdisk) : Stands romdisk 0 (imageOf files) := by
  obtain ⟨image, him, hs⟩ := h.image
  obtain ⟨hsane, hinsane⟩ := main_image h.given (List.length_pos_iff.mp h.count.1)
  by_cases hall : ∀ f ∈ files, basenameSanity f.base = true
  · obtain rfl : image = imageOf files := by simpa using him.symm.trans (hsane hall)
    exact hs
  · simp only [not_forall] at hall
    obtain ⟨f, hf, hb⟩ := hall
    obtain ⟨out, hout⟩ := hinsane ⟨f, hf, hb⟩
    rw [him, Option.some.injEq, Exit.mk.injEq] at hout
    exact absurd hout.1 (by decide)

/-- The pointer to a file is where its contents begin. -/
lemma Written.pointer (h : Written fs files romdisk) (hi : i < files.length) :
    offset romdisk (entryAt i) = start (headerSize + entrySize * files.length) files i := by
  have hlast := start_add_le (headerSize + entrySize * files.length) hi
  have hsize := h.size
  rw [((stands_image h.stands).fields h.count.2 hi).1, Nat.mod_eq_of_lt (by omega)]

lemma Written.contents (h : Written fs files romdisk) (hi : i < files.length) :
    Stands romdisk (offset romdisk (entryAt i)) files[i].contents := by
  rw [h.pointer hi]
  exact (stands_image h.stands).contents i hi

/-- A file and the one behind it. -/
lemma Written.next (h : Written fs files romdisk) (hi : i + 1 < files.length) :
    Stands romdisk (offset romdisk (entryAt i))
      (files[i].contents ++ files[i + 1].contents) := by
  refine stands_append.mpr ⟨h.contents (Nat.lt_of_succ_lt hi), ?_⟩
  have hc := h.contents hi
  rw [h.pointer hi, start_next _ (Nat.lt_of_succ_lt hi)] at hc
  rwa [h.pointer (Nat.lt_of_succ_lt hi)]

/-! ### The decision -/

variable (k : Kernel) (argc : ℕ) (argv : ℕ → ℤ → UInt8)

/-- `load_program`, called with the pointer and the length of the entry at `p`, jumps into the
program and returns 0. -/
def Accepts (romdisk : ℕ → UInt8) (p : ℕ) : Prop :=
  ∃ entry k' resume, loadProgram k (fun n => romdisk (offset romdisk p + n))
    (length romdisk p) argc argv = .enters entry k' resume ∧ ∀ k, (resume k).1 = 0

variable {k argc argv}

lemma accepts_iff {p : ℕ} : Accepts k argc argv romdisk p ↔
    memcmp (fun n => romdisk (offset romdisk p + n)) magic 3 = 0 := by
  unfold Accepts loadProgram
  split_ifs with h
  · simp [h]
  · exact ⟨fun _ => not_not.mp h, fun _ => ⟨_, _, _, rfl, fun _ => rfl⟩⟩

/-- On three bytes and more the check is the one of the contents. -/
lemma accepts_of_stands {p : ℕ} {bs : List UInt8} (h : Stands romdisk (offset romdisk p) bs)
    (h3 : 3 ≤ bs.length) : Accepts k argc argv romdisk p ↔ magicBytes <+: bs := by
  rw [accepts_iff]
  exact memcmp_magic h.from_start h3

/-- Of a shorter file the bytes it has are compared. -/
lemma isPrefix_of_accepts {p : ℕ} {bs : List UInt8} (h : Stands romdisk (offset romdisk p) bs)
    (h3 : bs.length < 3) (ha : Accepts k argc argv romdisk p) : bs <+: magicBytes := by
  rw [accepts_iff, memcmp_eq_zero] at ha
  rw [List.prefix_iff_getElem]
  refine ⟨Nat.le_of_lt h3, fun j hj => ?_⟩
  have hm := ha j (Nat.lt_trans hj h3)
  rw [h j hj] at hm
  exact hm.trans (List.getD_eq_getElem magicBytes 0 (Nat.lt_trans hj h3))

/-- The file at index `i` is executed exactly when it is a program, whatever the other files of
its image are. -/
structure Decides (k : Kernel) (argc : ℕ) (argv : ℕ → ℤ → UInt8) (romdisk : ℕ → UInt8)
    (files : List PackedFile) (i : ℕ) (hi : i < files.length) : Prop where
  program : Accepts k argc argv romdisk (entryAt i) ↔ magicBytes <+: files[i].contents
  alone : ∀ fs' files' romdisk' j (hj : j < files'.length), Written fs' files' romdisk' →
    files'[j].contents = files[i].contents →
      (Accepts k argc argv romdisk' (entryAt j) ↔ Accepts k argc argv romdisk (entryAt i))

/-- A file that has three bytes, or that no bytes behind it make a program of. -/
def Long (bs : List UInt8) : Prop := 3 ≤ bs.length ∨ ¬ bs <+: magicBytes

lemma Written.accepts (h : Written fs files romdisk) (hi : i < files.length)
    (hl : Long files[i].contents) :
    Accepts k argc argv romdisk (entryAt i) ↔ magicBytes <+: files[i].contents := by
  rcases Nat.lt_or_ge files[i].contents.length 3 with h3 | h3
  · have hno := hl.resolve_left (Nat.not_le.mpr h3)
    constructor
    · exact fun ha => absurd (isPrefix_of_accepts (h.contents hi) h3 ha) hno
    · exact fun hm => absurd hm.length_le (Nat.not_le.mpr h3)
  · exact accepts_of_stands (h.contents hi) h3

/-- A file `A` with another one behind it. -/
def pair (bs rest : List UInt8) : List PackedFile := [⟨[97], [65], bs⟩, ⟨[98], [66], rest⟩]

/-- The file system that has the two files. -/
def pairAt (bs rest path : List UInt8) : Option (List UInt8) :=
  ((pair bs rest).find? fun f => f.path = path).map PackedFile.contents

lemma written_pair (bs rest : List UInt8) (h : bs.length < 3) (h' : rest.length ≤ 3) :
    Written (pairAt bs rest) (pair bs rest) fun n => (imageOf (pair bs rest)).getD n 0 := by
  have hgiven : ∀ f ∈ pair bs rest, f.Given (pairAt bs rest) := by
    simp only [pair, List.mem_cons, List.not_mem_nil, or_false]
    rintro f (rfl | rfl) <;> exact ⟨by simp, by simp, by simp [pairAt, pair, PackedFile.path]⟩
  have hmain := (main_image hgiven (by simp [pair])).1 (by simp [pair, basenameSanity])
  refine ⟨hgiven, by simp [pair], ?_, _, hmain, stands_getD _⟩
  simp only [pair, lengths, headerSize, entrySize, List.length_cons, List.length_nil, List.map_cons,
    List.map_nil, List.sum_cons, List.sum_nil]
  omega

/-- The decision about the first file of a pair. -/
lemma pair_accepts {bs rest : List UInt8} (h : bs.length < 3) (hr : rest.length ≤ 3)
    (h3 : 3 ≤ bs.length + rest.length) :
    Accepts k argc argv (fun n => (imageOf (pair bs rest)).getD n 0) (entryAt 0) ↔
      magicBytes <+: bs ++ rest :=
  accepts_of_stands ((written_pair bs rest h hr).next (i := 0) (by simp [pair])) (by simpa using h3)

/-- Zeros do not complete a beginning of the magic. -/
lemma zeros_behind {bs rest : List UInt8} (h : bs ++ rest = magicBytes) (hne : rest ≠ []) :
    ¬ magicBytes <+: bs ++ [0, 0, 0] := by
  intro hzero
  rw [← h, List.prefix_append_right_inj] at hzero
  cases rest with
  | nil => exact hne rfl
  | cons r rest =>
    have hr : r ∈ magicBytes := by rw [← h]; simp
    rw [(List.cons_prefix_cons.mp hzero).1] at hr
    exact absurd hr (by decide)

/-- **The decision of the loader** is the right one, and that of the file alone, unless the
file is a beginning of a program shorter than the check. -/
theorem load_decides (k : Kernel) (argc : ℕ) (argv : ℕ → ℤ → UInt8)
    (hw : Written fs files romdisk) (hi : i < files.length) :
    Decides k argc argv romdisk files i hi ↔ Long files[i].contents := by
  constructor
  · intro h
    by_contra hl
    simp only [Long, not_or, Nat.not_le, not_not] at hl
    obtain ⟨h3, hpre⟩ := hl
    obtain ⟨rest, hrest⟩ := hpre
    have hlen := congrArg List.length hrest
    simp only [List.length_append, magicBytes, List.length_cons, List.length_nil] at hlen
    -- the same file in front of the rest of the beginning, and in front of zeros
    have hyes := (h.alone _ _ _ 0 (by simp [pair]) (written_pair _ rest h3 (by omega))
      rfl).symm.trans (pair_accepts h3 (by omega) (by omega))
    have hno := (h.alone _ _ _ 0 (by simp [pair]) (written_pair _ [0, 0, 0] h3 (by simp))
      rfl).symm.trans (pair_accepts h3 (by simp) (by simp))
    refine zeros_behind hrest ?_ (hno.mp (hyes.mpr (hrest.symm ▸ List.prefix_refl magicBytes)))
    rintro rfl
    simp at hlen
    omega
  · intro hl
    refine ⟨hw.accepts hi hl, fun fs' files' romdisk' j hj hw' heq => ?_⟩
    rw [hw.accepts hi hl, hw'.accepts hj (by rw [heq]; exact hl), heq]

/-- A program is executed. -/
theorem load_decides_program :
    Decides (.boot (fun _ => 0) fun _ => 0) 0 (fun _ _ => 0)
      (fun n => (imageOf (pair [] magicBytes)).getD n 0) (pair [] magicBytes) 1 (by decide) :=
  (load_decides _ _ _ (written_pair _ _ (by decide) (by decide)) (by decide)).mpr
    (Or.inl (by decide))

/-- The empty file in front of a program is executed. -/
theorem emptyFile_executed :
    ¬ Decides (.boot (fun _ => 0) fun _ => 0) 0 (fun _ _ => 0)
      (fun n => (imageOf (pair [] magicBytes)).getD n 0) (pair [] magicBytes) 0 (by decide) := by
  intro h
  have hno := h.program.mp ((pair_accepts (by decide) (by decide) (by decide)).mpr (by decide))
  exact absurd hno (by decide)

end Mono98.LoadCheck
