import Mono98.Romdisk

/-!
Packing a ROMDISK.

The packer writes the header, then in one pass over its arguments the table, with running
32-bit offsets, and in a second pass the contents, 4096 bytes at a time. A path is a list of
bytes, the file system maps paths to contents. A run is `none` when it crashes or never ends.
-/

namespace Mono98.Packer

open Mono98.Romdisk Mono98.Lib.Bytes

/-- The suffix from the first `c` on. -/
def strchr (c : UInt8) : List UInt8 → Option (List UInt8)
  | [] => none
  | d :: s => if d = c then some (d :: s) else strchr c s

/-- The loop of `basename` from `second`, at most `n` rounds of it. -/
def basenameLoop (c : UInt8) : ℕ → List UInt8 → Option (List UInt8)
  | 0, _ => none
  | n + 1, second =>
    match strchr c second with
    | none => some second
    | some s => basenameLoop c n s

/-- Without a separator the search goes on from a null pointer, and crashes. A search that
starts at a separator finds it again, and never ends. -/
def basename (filename : List UInt8) (c : UInt8) : Option (List UInt8) :=
  (strchr c filename).bind fun s => basenameLoop c (filename.length + 1) s.tail

def basenameSanity (bname : List UInt8) : Bool := bname.all fun c => 65 ≤ c && c ≤ 90

/-- `strncpy` into a field of 64 bytes. -/
def nameField (name : List UInt8) : List UInt8 :=
  name.take 64 ++ List.replicate (64 - name.length) 0

/-- `struct romdisk_entry`. -/
def entryBytes (name : List UInt8) (offset length : ℕ) : List UInt8 :=
  nameField name ++ le 4 offset ++ le 4 length

variable (fs : List UInt8 → Option (List UInt8))

/-- The first pass: whether it has gone through, and the table written. -/
def packTable : ℕ → List (List UInt8) → Option (Bool × List UInt8)
  | _, [] => some (true, [])
  | offset, path :: paths =>
    match fs path with
    | none => some (false, [])
    | some contents =>
      (basename path 47).bind fun name =>
        if basenameSanity name then
          (packTable ((offset + contents.length) % 2 ^ 32) paths).map fun r =>
            (r.1, entryBytes name offset contents.length ++ r.2)
        else some (false, [])

/-- The loop that copies a file in pieces of 4096 bytes, until one of them is short. -/
def copyFile (rest : List UInt8) : List UInt8 :=
  if rest.length < 4096 then rest else rest.take 4096 ++ copyFile (rest.drop 4096)
termination_by rest.length
decreasing_by simp only [List.length_drop]; omega

/-- The second pass. -/
def packContents : List (List UInt8) → Option (List UInt8)
  | [] => some []
  | path :: paths =>
    (fs path).bind fun contents => (packContents paths).map fun r => copyFile contents ++ r

/-- The exit code, and the output file if it has been opened. -/
structure Exit where
  code : ℤ
  output : Option (List UInt8)

/-- `main` with an output file that is not `--read`, on the paths behind it. -/
def main (paths : List (List UInt8)) : Option Exit :=
  if paths = [] then some ⟨-1, none⟩
  else
    let entries := paths.length % 2 ^ 16
    let header := romdiskMagic ++ le 2 entries
    (packTable fs ((headerSize + entrySize * entries) % 2 ^ 32) paths).bind fun r =>
      if r.1 then (packContents fs paths).map fun contents =>
        ⟨0, some (header ++ r.2 ++ contents)⟩
      else some ⟨-1, some (header ++ r.2)⟩

/-! ### What the parts write -/

lemma strchr_none {c : UInt8} {s : List UInt8} (h : c ∉ s) : strchr c s = none := by
  induction s with
  | nil => rfl
  | cons d s ih =>
    simp only [List.mem_cons, not_or] at h
    rw [strchr, if_neg (Ne.symm h.1), ih h.2]

lemma strchr_append {c : UInt8} {s : List UInt8} (h : c ∉ s) (t : List UInt8) :
    strchr c (s ++ c :: t) = some (c :: t) := by
  induction s with
  | nil => exact if_pos rfl
  | cons d s ih =>
    simp only [List.mem_cons, not_or] at h
    rw [List.cons_append, strchr, if_neg (Ne.symm h.1), ih h.2]

/-- The base name behind the only separator. -/
lemma basename_eq {dir base : List UInt8} {c : UInt8} (hd : c ∉ dir) (hb : c ∉ base) :
    basename (dir ++ c :: base) c = some base := by
  rw [basename, strchr_append hd, Option.bind_some, List.tail_cons, basenameLoop, strchr_none hb]

lemma copyFile_eq (rest : List UInt8) : copyFile rest = rest := by
  induction rest using copyFile.induct with
  | case1 rest h => rw [copyFile, if_pos h]
  | case2 rest h ih => rw [copyFile, if_neg h, ih, List.take_append_drop]

@[simp] lemma nameField_length (name : List UInt8) : (nameField name).length = 64 := by
  simp only [nameField, List.length_append, List.length_take, List.length_replicate]
  omega

@[simp] lemma entryBytes_length (name : List UInt8) (offset length : ℕ) :
    (entryBytes name offset length).length = entrySize := by
  simp [entryBytes, entrySize]

/-- Reading an entry back. -/
lemma isEntry_of_stands {romdisk : ℕ → UInt8} {p : ℕ} {name : List UInt8} {off len : ℕ}
    (h : Stands romdisk p (entryBytes name off len)) (hn : name.length < 64)
    (h0 : ∀ c ∈ name, c ≠ 0) (hoff : off < 2 ^ 32) (hlen : len < 2 ^ 32) :
    IsEntry romdisk p name off len := by
  obtain ⟨h, hl⟩ := stands_append.mp h
  obtain ⟨hname, ho⟩ := stands_append.mp h
  simp only [List.length_append, nameField_length, le_length] at ho hl
  refine ⟨?_, load_of_stands ho (by simpa using hoff), load_of_stands hl (by simpa using hlen)⟩
  rw [nameField, List.take_of_length_le (by omega)] at hname
  exact (isString_of_padded hname (by omega) h0).from_start

end Mono98.Packer
