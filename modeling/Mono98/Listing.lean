import Mono98.CommandRun
import Mono98.Itoa

/-!
Listing the ROMDISK.

A line is a name, spaces up to its column, and the length of the file. The number of spaces is
a difference of 32 bits, which goes round for a name of more than 19 letters; the 8-bit counter
of the loop then never gets to it.
-/

namespace Mono98.Listing

open Mono98.Graphics Mono98.Tty Mono98.TtyRun Mono98.Strings Mono98.Process Mono98.Romdisk
open Mono98.Packer Mono98.Command Mono98.CommandRun Mono98.Itoa
open Mono98.Lib.Bytes Mono98.Lib.Fold Mono98.Lib.Decimal

/-! ### What is sent -/

variable (around : ℤ → ℕ)

/-- The bytes of `text` are printed, in one or more strings, and leave `k'`. -/
def Sends (k k' : Kernel) (text : List UInt8) : Prop :=
  ∃ msgs : List (List UInt8), msgs.flatten = text ∧ msgs.foldlM (kputs around) k = some k'

/-- A call on `k` comes back with a terminal that still draws, having sent `text`. -/
def Says (k : Kernel) (o : Option Kernel) (text : List UInt8) : Prop :=
  ∃ k', o = some k' ∧ Sends around k k' text ∧ Sound k'.machine

variable {around} {k k' k'' : Kernel} {o : Option Kernel} {s t : List UInt8}
variable {romdisk : ℕ → UInt8}

lemma Sends.trans (h : Sends around k k' s) (h' : Sends around k' k'' t) :
    Sends around k k'' (s ++ t) := by
  obtain ⟨msgs, rfl, hm⟩ := h
  obtain ⟨msgs', rfl, hm'⟩ := h'
  refine ⟨msgs ++ msgs', List.flatten_append, ?_⟩
  rw [List.foldlM_append, hm]
  exact hm'

lemma says_pure (hk : Sound k.machine) : Says around k (some k) [] :=
  ⟨k, rfl, ⟨[], rfl, rfl⟩, hk⟩

lemma says_kputs (hk : Sound k.machine) (ht : IsText t) : Says around k (kputs around k t) t := by
  obtain ⟨m, hm, hs⟩ := tputs_some around hk ht
  have heq : kputs around k t = some { k with machine := m } := by rw [kputs, hm]; rfl
  refine ⟨{ k with machine := m }, heq, ⟨[t], by simp, ?_⟩, hs⟩
  rw [List.foldlM_cons, heq]
  rfl

/-- One call after the other. -/
lemma Says.bind {f : Kernel → Option Kernel} (h : Says around k o s)
    (hf : ∀ k', Sound k'.machine → Says around k' (f k') t) :
    Says around k (o.bind f) (s ++ t) := by
  obtain ⟨k₁, rfl, hs, hk⟩ := h
  obtain ⟨k₂, heq, ht, hk₂⟩ := hf k₁ hk
  exact ⟨k₂, by rw [Option.bind_some, heq], hs.trans ht, hk₂⟩

/-- A loop of calls. -/
lemma says_foldlM {β : Type} {f : Kernel → β → Option Kernel} {text : β → List UInt8} {l : List β}
    (hf : ∀ b ∈ l, ∀ k, Sound k.machine → Says around k (f k b) (text b))
    (hk : Sound k.machine) : Says around k (l.foldlM f k) (l.flatMap text) := by
  induction l generalizing k with
  | nil => exact says_pure hk
  | cons b l ih =>
    rw [List.foldlM_cons, List.flatMap_cons]
    exact (hf b (by simp) k hk).bind fun k' hk' => ih (fun c hc => hf c (by simp [hc])) hk'

/-! ### A line -/

/-- An entry of the table. -/
structure TableEntry where
  name : List UInt8
  offset : ℕ
  length : ℕ

namespace TableEntry

variable (e : TableEntry)

/-- The name has 1 to 63 letters, and the file at least one byte. -/
structure Ok : Prop where
  letters : ∀ c ∈ e.name, 65 ≤ c ∧ c ≤ 90
  name : 1 ≤ e.name.length ∧ e.name.length ≤ 63
  length : 1 ≤ e.length ∧ e.length ≤ 2 ^ 31 - 1

/-- The line of an entry. -/
def line : List UInt8 :=
  e.name ++ List.replicate (19 - e.name.length) 32 ++ numeral e.length ++ [10]

end TableEntry

variable {e : TableEntry} {es : List TableEntry} {p : ℕ}

lemma spacing_short {len : ℕ} (h : len ≤ 19) : spacing len = 19 - len := by
  unfold spacing
  omega

/-- Behind the column the difference goes round. -/
lemma spacing_long {len : ℕ} (h : 20 ≤ len) (h' : len ≤ 63) : 2 ^ 8 ≤ spacing len := by
  unfold spacing
  omega

lemma TableEntry.Ok.strlen (h : e.Ok) (hp : IsString (filename romdisk p) 0 e.name) :
    strlen (filename romdisk p) = some e.name.length := by
  have h1 := h.name.1
  have h63 := h.name.2
  exact strlen_spec hp (List.length_pos_iff.mp h1) (by omega)

lemma TableEntry.Ok.text (h : e.Ok) : IsText e.name := by
  refine ⟨Nat.le_trans h.name.2 (by decide), fun c hc => ?_⟩
  rintro rfl
  exact absurd (h.letters 0 hc).1 (by decide)

/-- The digits of the length of a file. -/
lemma TableEntry.Ok.digits (h : e.Ok) (filesize : ℕ → UInt8) :
    textAt (itoa (toInt32 e.length) filesize) = numeral e.length ∧ IsText (numeral e.length) := by
  have h1 := h.length.1
  have h2 := h.length.2
  have hl : (Nat.digits 10 e.length).length ≤ 10 :=
    (Nat.digits_length_le_iff (by decide) _).mpr (by omega)
  have hnum : (numeral e.length).length ≤ 10 := numeral_length_le (by decide) (by omega)
  have hs := (itoa_eq (by omega) (Nat.lt_of_le_of_lt hl (by decide)) filesize).1
  rw [toInt32, if_pos (by omega)]
  exact ⟨textAt_eq hs (by omega), by omega, hs.nonzero⟩

/-- **An entry** whose name fits its column gets its line. -/
lemma says_listEntry (hk : Sound k.machine) (h : e.Ok)
    (hp : IsEntry romdisk p e.name e.offset e.length) (h19 : e.name.length ≤ 19)
    (filesize : ℕ → UInt8) : Says around k (listEntry around romdisk filesize k p) e.line := by
  obtain ⟨hdigits, htext⟩ := h.digits filesize
  have h63 := h.name.2
  have h1 := h.length.1
  have hname : textAt (filename romdisk p) = e.name := textAt_eq hp.name (by omega)
  have hspaces : List.replicate (19 - e.name.length) 32 =
      (List.range (19 - e.name.length)).flatMap fun _ => [(32 : UInt8)] := by
    rw [← List.map_eq_flatMap, List.map_const', List.length_range]
  rw [listEntry, hp.length, if_neg (by omega), hname, h.strlen hp.name, TableEntry.line, hspaces,
    List.append_assoc, List.append_assoc]
  refine (says_kputs hk h.text).bind fun k hk => ?_
  simp only [Option.bind_eq_bind, Option.bind_some, spacing_short h19,
    if_pos (show 19 - e.name.length < 2 ^ 8 by omega), hdigits]
  refine (says_foldlM (fun _ _ k hk => says_kputs hk (by simp [IsText])) hk).bind fun k hk => ?_
  exact (says_kputs hk htext).bind fun k hk => says_kputs hk (by simp [IsText, ascii])

/-- An entry with a longer name does not come back. -/
lemma listEntry_long (h : e.Ok) (hp : IsEntry romdisk p e.name e.offset e.length)
    (h20 : 20 ≤ e.name.length) (filesize : ℕ → UInt8) :
    listEntry around romdisk filesize k p = none := by
  have h1 := h.length.1
  have hno : ¬ spacing e.name.length < 2 ^ 8 := Nat.not_lt.mpr (spacing_long h20 h.name.2)
  rw [listEntry, hp.length, if_neg (by omega), h.strlen hp.name]
  simp only [Option.bind_eq_bind, Option.bind_some, if_neg hno,
    Option.bind_fun_none]

/-! ### The whole list -/

/-- A disk with the table `es`. -/
structure WellFormed (romdisk : ℕ → UInt8) (es : List TableEntry) : Prop where
  magic : Stands romdisk 0 romdiskMagic
  entries : entries romdisk = es.length
  entry : ∀ i (hi : i < es.length),
    IsEntry romdisk (entryAt i) es[i].name es[i].offset es[i].length

/-- The two heading lines, the entries in their order, and an empty line. -/
def listing (es : List TableEntry) : List UInt8 :=
  ascii "Contents of main romdisk\n" ++ (ascii "FILENAME           LENGTH\n" ++
    (es.flatMap TableEntry.line ++ [10]))

/-- The callback meets the entries in the order of the table. -/
lemma listRomdisk_zip (hd : WellFormed romdisk es) (f : Kernel → ℕ → Option Kernel) :
    (listRomdisk romdisk).foldlM f k =
      es.zipIdx.foldlM (fun k e => f k (entryAt e.2)) k := by
  rw [listRomdisk, hd.entries, List.foldlM_map]
  exact (foldlM_zipIdx (fun _ _ _ => rfl) k).symm

lemma mem_zipIdx_entry (hd : WellFormed romdisk es) {e : TableEntry × ℕ} (he : e ∈ es.zipIdx) :
    e.1 ∈ es ∧ IsEntry romdisk (entryAt e.2) e.1.name e.1.offset e.1.length := by
  obtain ⟨hi, heq⟩ := List.getElem?_eq_some_iff.mp (List.mem_zipIdx_iff_getElem?.mp he)
  rw [← heq]
  exact ⟨List.getElem_mem hi, hd.entry e.2 hi⟩

/-- The display comes back, having sent the list. -/
def Lists (around : ℤ → ℕ) (romdisk filesize : ℕ → UInt8) (k : Kernel) (es : List TableEntry) :
    Prop :=
  ∃ k', displayRomdisk around romdisk filesize k = some k' ∧ Sends around k k' (listing es)

lemma lists_of_short (hk : Sound k.machine) (hd : WellFormed romdisk es) (hes : ∀ e ∈ es, e.Ok)
    (h19 : ∀ e ∈ es, e.name.length ≤ 19) (filesize : ℕ → UInt8) :
    Lists around romdisk filesize k es := by
  have hlines : es.flatMap TableEntry.line = es.zipIdx.flatMap fun e => e.1.line := by
    rw [← List.flatMap_map Prod.fst TableEntry.line, List.zipIdx_map_fst]
  have hsays : Says around k (displayRomdisk around romdisk filesize k) (listing es) := by
    rw [displayRomdisk, listing, hlines]
    refine (says_kputs hk (by simp [IsText, ascii])).bind fun k hk => ?_
    refine (says_kputs hk (by simp [IsText, ascii])).bind fun k hk => ?_
    rw [listRomdisk_zip hd]
    refine (says_foldlM (fun e he k hk => ?_) hk).bind fun k hk =>
      says_kputs hk (by simp [IsText])
    obtain ⟨hmem, hentry⟩ := mem_zipIdx_entry hd he
    exact says_listEntry hk (hes _ hmem) hentry (h19 _ hmem) filesize
  obtain ⟨k', heq, hs, -⟩ := hsays
  exact ⟨k', heq, hs⟩

lemma short_of_some (hd : WellFormed romdisk es) (hes : ∀ e ∈ es, e.Ok) {filesize : ℕ → UInt8}
    (h : displayRomdisk around romdisk filesize k = some k') : ∀ e ∈ es, e.name.length ≤ 19 := by
  simp only [displayRomdisk, Option.bind_eq_bind, Option.bind_eq_some_iff] at h
  obtain ⟨k₁, -, k₂, -, k₃, hloop, -⟩ := h
  rw [listRomdisk_zip hd] at hloop
  intro e he
  obtain ⟨i, hi, rfl⟩ := List.getElem_of_mem he
  have hmem : (es[i], i) ∈ es.zipIdx := by simp [List.mem_zipIdx_iff_getElem?, hi]
  obtain ⟨ka, kb, hentry⟩ := foldlM_each hloop hmem
  obtain ⟨-, hp⟩ := mem_zipIdx_entry hd hmem
  by_contra hlong
  rw [listEntry_long (hes _ he) hp (by omega)] at hentry
  exact absurd hentry (by simp)

/-- **The list of the disk** is printed exactly when every name fits its column. -/
theorem display_lists (hk : Sound k.machine) (hd : WellFormed romdisk es) (hes : ∀ e ∈ es, e.Ok)
    (filesize : ℕ → UInt8) :
    Lists around romdisk filesize k es ↔ ∀ e ∈ es, e.name.length ≤ 19 := by
  constructor
  · rintro ⟨k', h, -⟩
    exact short_of_some hd hes h
  · exact fun h19 => lists_of_short hk hd hes h19 filesize

/-! ### Two disks -/

/-- A disk with one file. -/
def diskOf (e : TableEntry) : ℕ → UInt8 := fun i =>
  (romdiskMagic ++ le 2 1 ++ entryBytes e.name e.offset e.length).getD i 0

lemma wellFormed_diskOf (h : e.Ok) (ho : e.offset < 2 ^ 32) : WellFormed (diskOf e) [e] := by
  obtain ⟨hhead, hentry⟩ := stands_append.mp
    (stands_getD (romdiskMagic ++ le 2 1 ++ entryBytes e.name e.offset e.length))
  obtain ⟨hmagic, hcount⟩ := stands_append.mp hhead
  refine ⟨hmagic, load_of_stands hcount (by simp), fun i hi => ?_⟩
  obtain rfl : i = 0 := by simpa using hi
  have h63 := h.name.2
  have hlen := h.length.2
  show IsEntry (diskOf e) (entryAt 0) e.name e.offset e.length
  exact isEntry_of_stands hentry (by omega) h.text.2 ho (by omega)

def shortEntry : TableEntry := ⟨ascii "TESTASM", 81, 1⟩

lemma shortEntry_ok : shortEntry.Ok :=
  ⟨by simp [shortEntry, ascii], by decide, by simp [shortEntry]⟩

/-- The display of a disk with the file `TESTASM`. -/
theorem display_lists_short :
    Lists (fun _ => 0) (diskOf shortEntry) (fun _ => 0) (.boot (fun _ => 0) fun _ => 0)
      [shortEntry] :=
  (display_lists (sound_boot _ _) (wellFormed_diskOf shortEntry_ok (by simp [shortEntry]))
    (by simpa using shortEntry_ok) _).mpr (by simp [shortEntry, ascii])

/-- A name of 20 letters. -/
def longEntry : TableEntry := ⟨List.replicate 20 65, 81, 1⟩

/-- The display of its disk does not come back. -/
theorem longEntry_unlisted :
    ¬ Lists (fun _ => 0) (diskOf longEntry) (fun _ => 0) (.boot (fun _ => 0) fun _ => 0)
      [longEntry] := by
  have hok : longEntry.Ok := ⟨by simp [longEntry], by decide, by simp [longEntry]⟩
  rintro ⟨k', h, -⟩
  have := short_of_some (wellFormed_diskOf hok (by simp [longEntry])) (by simpa using hok) h
    longEntry (by simp)
  simp [longEntry] at this

end Mono98.Listing
