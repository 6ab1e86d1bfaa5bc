import Mono98.Strings

/-!
Reading a ROMDISK.

A disk is a packed header of 9 bytes, a table of packed entries of 72 bytes, and the contents
of the files. It is seen from its start, and pointers into it are offsets.
-/

namespace Mono98.Romdisk

open Mono98.Strings Mono98.Lib.Bytes

def romdiskMagic : List UInt8 := [82, 79, 77, 68, 73, 83, 75]

/-- `sizeof(struct romdisk_header)`. -/
def headerSize : ℕ := 9

/-- `sizeof(struct romdisk_entry)`. -/
def entrySize : ℕ := 72

/-- `struct romdisk_file`. -/
structure RomdiskFile where
  file : ℕ
  length : ℕ
  noent : UInt8
  deriving DecidableEq

variable (romdisk : ℕ → UInt8)

/-- The field `entries` of the header. -/
def entries : ℕ := load romdisk 2 7

/-- The pointer to entry `i`. -/
def entryAt (i : ℕ) : ℕ := headerSize + entrySize * i

/-- The memory from the field `filename` of the entry at `p` on. -/
def filename (p : ℕ) : ℕ → UInt8 := fun n => romdisk (p + n)

def offset (p : ℕ) : ℕ := load romdisk 4 (p + 64)

def length (p : ℕ) : ℕ := load romdisk 4 (p + 68)

/-- The entries that the callback is called with, in order. -/
def listRomdisk : List ℕ := (List.range (entries romdisk)).map entryAt

/-- The search through the entries `is`. -/
def findEntry (name : ℕ → UInt8) : List ℕ → Option RomdiskFile
  | [] => some ⟨0, 0, 1⟩
  | i :: is =>
    (strcmp (filename romdisk (entryAt i)) name).bind fun d =>
      if d = 0 then some ⟨offset romdisk (entryAt i), length romdisk (entryAt i), 0⟩
      else findEntry name is

def getRomdiskFile (name : ℕ → UInt8) : Option RomdiskFile :=
  findEntry romdisk name (List.range (entries romdisk))

/-! ### Entries and the search for one -/

/-- The entry at `p` has a name, an offset and a length. -/
structure IsEntry (p : ℕ) (name : List UInt8) (off len : ℕ) : Prop where
  name : IsString (filename romdisk p) 0 name
  offset : offset romdisk p = off
  length : length romdisk p = len

variable {romdisk}

/-- The search stops at the first entry of the name, if there is one. -/
lemma findEntry_spec {names : ℕ → List UInt8} {off len : ℕ → ℕ} {name : List UInt8}
    {str : ℕ → UInt8} (hstr : IsString str 0 name) {is : List ℕ}
    (h : ∀ i ∈ is, IsEntry romdisk (entryAt i) (names i) (off i) (len i))
    (hlen : ∀ i ∈ is, (names i).length < 2 ^ 32) :
    findEntry romdisk str is = some
      (match is.find? fun i => names i = name with
      | some i => ⟨off i, len i, 0⟩
      | none => ⟨0, 0, 1⟩) := by
  induction is with
  | nil => rfl
  | cons i is ih =>
    obtain ⟨hn, ho, hl⟩ := h i (by simp)
    obtain ⟨d, hd, hiff⟩ := strcmp_spec hn hstr (hlen i (by simp))
    rw [findEntry, hd, Option.bind_some]
    by_cases he : names i = name
    · rw [if_pos (hiff.mpr he), ho, hl]
      simp [he]
    · rw [if_neg (fun h0 => he (hiff.mp h0)), List.find?_cons_of_neg (by simpa using he)]
      exact ih (fun j hj => h j (by simp [hj])) fun j hj => hlen j (by simp [hj])

end Mono98.Romdisk
