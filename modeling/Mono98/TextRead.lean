import Mono98.Process

/-!
Reading the buffered line with `SYS_READ`.

The call clamps the length it advances by, but copies the length it was asked for, and from
the start of the buffer instead of the offset. It is a stream read exactly when the length is
within what is left and the bytes at the offset are those at the start.
-/

namespace Mono98.TextRead

open Mono98.Tty Mono98.Process Mono98.Strings

variable {k : Kernel} {t : Terminal} {len : ℕ}

/-- The bytes left to read. -/
def left (t : Terminal) : ℕ := t.textBuflen - t.textOffset

/-- The terminal after a read of `m` bytes. -/
def consumed (t : Terminal) (m : ℕ) : Terminal :=
  if t.textOffset + m = t.textBuflen then
    { t with
      textBuflen := 0
      textOffset := 0
      textBuffer := fun i => if i < 256 then 0 else t.textBuffer i }
  else { t with textOffset := t.textOffset + m }

/-- A stream read: whatever the user's buffer holds, the next `min len left` bytes are stored
in it and no others, and the offset moves on by as many. -/
structure Delivers (k : Kernel) (len : ℕ) : Prop where
  buf : ∀ buf i, (sysRead k 0 buf len).buf i =
    if i < min len (left k.term) then k.term.textBuffer (k.term.textOffset + i) else buf i
  term : ∀ buf, (sysRead k 0 buf len).kernel.term = consumed k.term (min len (left k.term))

/-- The length is within what is left, and the bytes at the offset are those at the start of
the buffer. -/
def Aligned (t : Terminal) (len : ℕ) : Prop :=
  len ≤ left t ∧ ∀ i < len, t.textBuffer i = t.textBuffer (t.textOffset + i)

/-- The offset is within the line, and the line within its 8-bit length. -/
def InLine (t : Terminal) : Prop := t.textOffset ≤ t.textBuflen ∧ t.textBuflen ≤ 255

instance (t : Terminal) : Decidable (InLine t) := inferInstanceAs (Decidable (_ ∧ _))

lemma sysRead_buf (k : Kernel) (buf : ℕ → UInt8) (len i : ℕ) :
    (sysRead k 0 buf len).buf i = if i < len then k.term.textBuffer i else buf i :=
  memcpy_apply buf k.term.textBuffer len i

lemma sysRead_term (k : Kernel) (buf : ℕ → UInt8) (len : ℕ) :
    (sysRead k 0 buf len).kernel.term = advanceText k.term (safeLen k.term len) := rfl

lemma safeLen_of_le (h : InLine t) (hlen : len ≤ left t) : safeLen t len = len := by
  obtain ⟨h1, h2⟩ := h
  unfold safeLen left at *
  split_ifs with hs <;> omega

lemma advanceText_eq (h : InLine t) {m : ℕ} (hm : m ≤ left t) :
    advanceText t m = consumed t m := by
  obtain ⟨h1, h2⟩ := h
  have hmod : (t.textOffset + m) % 2 ^ 8 = t.textOffset + m :=
    Nat.mod_eq_of_lt (by unfold left at hm; omega)
  have hset : memset t.textBuffer 0 256 = fun i => if i < 256 then 0 else t.textBuffer i :=
    funext fun i => memset_apply t.textBuffer 0 256 i
  unfold advanceText consumed
  simp only [hmod, hset]

/-- **One call** is a stream read exactly when it is aligned. -/
theorem delivers_iff (h : InLine k.term) : Delivers k len ↔ Aligned k.term len := by
  constructor
  · intro hd
    have hle : len ≤ left k.term := by
      by_contra hlt
      -- the byte behind what is left is stored too
      have h1 := hd.buf (fun _ => k.term.textBuffer (left k.term) + 1) (left k.term)
      rw [sysRead_buf, if_pos (by omega), if_neg (by omega)] at h1
      simp at h1
    refine ⟨hle, fun i hi => ?_⟩
    have h1 := hd.buf (fun _ => 0) i
    rwa [sysRead_buf, if_pos hi, if_pos (by omega)] at h1
  · rintro ⟨hle, heq⟩
    have hmin : min len (left k.term) = len := Nat.min_eq_left hle
    refine ⟨fun buf i => ?_, fun buf => ?_⟩
    · rw [sysRead_buf, hmin]
      split_ifs with hi
      · exact heq i hi
      · rfl
    · rw [sysRead_term, safeLen_of_le h hle, hmin, advanceText_eq h hle]

/-! ### Sequences of calls -/

/-- A call, by what the user's buffer holds and the length it asks for. -/
structure Call where
  buf : ℕ → UInt8
  len : ℕ

def answer (k : Kernel) (c : Call) : Answer := sysRead k 0 c.buf c.len

/-- Every call is a stream read. -/
def Streams : Kernel → List Call → Prop
  | _, [] => True
  | k, c :: calls => Delivers k c.len ∧ Streams (answer k c).kernel calls

/-- Every call is aligned in the state it is made in. -/
def AllAligned : Kernel → List Call → Prop
  | _, [] => True
  | k, c :: calls => Aligned k.term c.len ∧ AllAligned (answer k c).kernel calls

/-- The bytes that the calls leave in the user's buffers, up to what was left to read. -/
def received : Kernel → List Call → List UInt8
  | _, [] => []
  | k, c :: calls =>
    (List.range (min c.len (left k.term))).map (answer k c).buf ++
      received (answer k c).kernel calls

/-- What is left of the buffered line. -/
def line (t : Terminal) : List UInt8 :=
  (List.range (left t)).map fun i => t.textBuffer (t.textOffset + i)

lemma inLine_consumed (h : InLine t) {m : ℕ} (hm : m ≤ left t) : InLine (consumed t m) := by
  obtain ⟨h1, h2⟩ := h
  unfold left at hm
  unfold consumed
  split_ifs with he
  · exact ⟨Nat.le_refl 0, Nat.zero_le _⟩
  · exact ⟨show t.textOffset + m ≤ t.textBuflen by omega, h2⟩

/-- Reading `m` bytes leaves the rest of the line. -/
lemma line_consumed (h : InLine t) {m : ℕ} (hm : m ≤ left t) :
    line (consumed t m) = (line t).drop m := by
  obtain ⟨h1, h2⟩ := h
  unfold left at hm
  unfold consumed
  split_ifs with he
  · have hl : left t = m := by unfold left; omega
    rw [line, line, hl, List.drop_of_length_le (by simp)]
    rfl
  · have hl : left { t with textOffset := t.textOffset + m } = left t - m := by
      simp only [left]; omega
    refine List.ext_getElem (by simp [line, hl]) fun i _ _ => ?_
    simp [line, Nat.add_assoc]

lemma Delivers.consumes (hd : Delivers k len) (h : InLine k.term) (buf : ℕ → UInt8) :
    (sysRead k 0 buf len).kernel.term = consumed k.term len ∧ len ≤ left k.term := by
  have hle := ((delivers_iff h).mp hd).1
  have ht := hd.term buf
  rw [Nat.min_eq_left hle] at ht
  exact ⟨ht, hle⟩

/-- **A sequence of calls** is a stream read exactly when every call is aligned, and then the
bytes received are the next ones of the line. -/
theorem read_stream (h : InLine k.term) (calls : List Call) :
    (Streams k calls ↔ AllAligned k calls) ∧
      (Streams k calls → received k calls = (line k.term).take (calls.map Call.len).sum) := by
  induction calls generalizing k with
  | nil => exact ⟨Iff.rfl, fun _ => by simp [received]⟩
  | cons c calls ih =>
    have next : Delivers k c.len → InLine (answer k c).kernel.term := fun hd => by
      obtain ⟨ht, hle⟩ := hd.consumes h c.buf
      rw [answer, ht]
      exact inLine_consumed h hle
    constructor
    · refine ⟨fun ⟨hd, hs⟩ => ?_, fun ⟨ha, hs⟩ => ?_⟩
      · exact ⟨(delivers_iff h).mp hd, (ih (next hd)).1.mp hs⟩
      · have hd := (delivers_iff h).mpr ha
        exact ⟨hd, (ih (next hd)).1.mpr hs⟩
    · rintro ⟨hd, hs⟩
      obtain ⟨ht, hle⟩ := hd.consumes h c.buf
      have hfirst : (List.range (min c.len (left k.term))).map (answer k c).buf =
          (line k.term).take c.len := by
        rw [line, ← List.map_take, List.take_range]
        refine List.map_congr_left fun i hi => ?_
        exact (hd.buf c.buf i).trans (if_pos (List.mem_range.mp hi))
      rw [received, hfirst, (ih (next hd)).2 hs, answer, ht, line_consumed h hle,
        List.map_cons, List.sum_cons, List.take_add]

/-- The kernel with a line in its text buffer. -/
def withText (text : List UInt8) (offset : ℕ) : Kernel :=
  let k := Kernel.boot (fun _ => 0) fun _ => 0
  k.setTerm { k.term with
    textBuffer := fun i => text.getD i 0
    textBuflen := text.length
    textOffset := offset }

/-- A line is read from its start, and then nothing. -/
theorem read_stream_line :
    (Streams (withText [72, 73] 0) [⟨fun _ => 7, 2⟩, ⟨fun _ => 7, 0⟩] ↔
      AllAligned (withText [72, 73] 0) [⟨fun _ => 7, 2⟩, ⟨fun _ => 7, 0⟩]) ∧
    (Streams (withText [72, 73] 0) [⟨fun _ => 7, 2⟩, ⟨fun _ => 7, 0⟩] →
      received (withText [72, 73] 0) [⟨fun _ => 7, 2⟩, ⟨fun _ => 7, 0⟩] =
        (line (withText [72, 73] 0).term).take ([(⟨fun _ => 7, 2⟩ : Call), ⟨fun _ => 7, 0⟩].map
          Call.len).sum) :=
  read_stream (by decide) _

/-- With one byte of two left to read, a read of one byte gets the first one again. -/
theorem read_first_again : InLine (withText [72, 73] 1).term ∧
    ¬ Streams (withText [72, 73] 1) [⟨fun _ => 0, 1⟩] := by
  refine ⟨by decide, fun ⟨hd, _⟩ => ?_⟩
  have h := hd.buf (fun _ => 0) 0
  exact absurd h (by decide)

end Mono98.TextRead
