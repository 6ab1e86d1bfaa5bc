import Mathlib.Data.List.TakeWhile
import Mono98.CommandRun

/-!
The loop of `tputs`.

Its index has 16 bits: behind 65536 bytes without a terminator it is back at the first one, and
the loop never ends. A byte is looked up in the font as a signed `char`, which is negative from
0x80 on; only the bytes from 0xF0 on, the colour codes, are kept away from the font.
-/

namespace Mono98.TputsLoop

open Mono98.Font Mono98.Graphics Mono98.Tty Mono98.TtyRun Mono98.Process Mono98.Command
open Mono98.CommandRun Mono98.Lib.Bytes Mono98.Lib.Word Mono98.Lib.Fold

variable {around around' : ℤ → ℕ} {m m' : Machine} {msg : List UInt8}

/-! ### The bytes it handles -/

/-- The bytes that the body handles in `n` rounds from index `i`, in order. -/
def handled (msg : List UInt8) : ℕ → ℕ → List UInt8
  | 0, _ => []
  | n + 1, i => if msg.getD i 0 = 0 then [] else msg.getD i 0 :: handled msg n (inc 16 i)

/-- A loop that ends has handled these bytes. -/
lemma tputsLoop_handled {n i : ℕ} (h : tputsLoop around msg n i m = some m') :
    (handled msg n i).foldlM (tputsByte around) m = some m' := by
  induction n generalizing i m with
  | zero => cases h
  | succ n ih =>
    rw [tputsLoop] at h
    rw [handled]
    split_ifs at h ⊢ with h0
    · exact h
    · obtain ⟨m₁, h₁, h⟩ := Option.bind_eq_some_iff.mp h
      rw [List.foldlM_cons, h₁]
      exact ih h

/-- Enough rounds from index `i` handle the string from there on. -/
lemma handled_eq (h : IsText msg) (n i : ℕ) (hi : i ≤ msg.length) (hn : msg.length < n + i) :
    handled msg n i = msg.drop i := by
  induction n generalizing i with
  | zero => omega
  | succ n ih =>
    rw [handled]
    rcases Nat.lt_or_ge i msg.length with hlt | hge
    · have hc : msg.getD i 0 = msg[i] := List.getD_eq_getElem _ _ hlt
      have hl := h.1
      rw [hc, if_neg (h.2 _ (List.getElem_mem hlt)), inc_of_lt (by omega),
        ih (i + 1) hlt (by omega), ← List.drop_eq_getElem_cons hlt]
    · have hc : msg.getD i 0 = 0 := by simp [List.getD_eq_getElem?_getD, hge]
      rw [hc, if_pos rfl, List.drop_of_length_le hge]

/-- The index never gets to the end of a longer string. -/
lemma tputsLoop_long (h0 : ∀ c ∈ msg, c ≠ 0) (hl : 65536 ≤ msg.length) (n : ℕ) {i : ℕ}
    (hi : i < 65536) (m : Machine) : tputsLoop around msg n i m = none := by
  induction n generalizing i m with
  | zero => rfl
  | succ n ih =>
    have hlt : i < msg.length := Nat.lt_of_lt_of_le hi hl
    have hc : msg.getD i 0 = msg[i] := List.getD_eq_getElem _ _ hlt
    rw [tputsLoop, hc, if_neg (h0 _ (List.getElem_mem hlt)), Option.bind_eq_none_iff]
    exact fun m₁ _ => ih (Nat.mod_lt _ (by decide)) m₁

/-! ### Reachable terminals -/

/-- The bytes of a string are those before its terminator. -/
def NoZero : Op → Prop
  | .puts msg => ∀ c ∈ msg, c ≠ 0
  | .clear => True

/-- The terminal has been set up with at least two rows and one column, and a run of `tputs`
and `clear_terminal` has led to `m`. -/
def Reached (around : ℤ → ℕ) (m : Machine) : Prop :=
  ∃ rows columns background colour v ops, (2 ≤ rows ∧ rows ≤ 65535) ∧
    (1 ≤ columns ∧ columns ≤ 65535) ∧ v.AreaOk ∧ (∀ op ∈ ops, NoZero op) ∧
      runOps around (initTerminal rows columns background colour v) ops = some m

/-- A string that has been printed was within the range of the index. -/
lemma length_of_tputs (h0 : ∀ c ∈ msg, c ≠ 0) (h : tputs around m msg = some m') :
    msg.length ≤ 65535 := by
  by_contra hl
  rw [tputs, tputsLoop_long h0 (by omega) _ (Nat.zero_lt_succ _)] at h
  cases h

lemma Reached.sound (h : Reached around m) : Sound m := by
  obtain ⟨rows, columns, background, colour, v, ops, hr, hc, hv, h0, hm⟩ := h
  obtain ⟨hs, -⟩ := initTerminal_sound (show 2 ≤ rows ∧ rows < 65536 by omega)
    (show 1 ≤ columns ∧ columns < 65536 by omega) background colour hv
  have htext : ∀ op ∈ ops, op.Text := by
    intro op hop
    obtain ⟨c, c', hcall⟩ := foldlM_each hm hop
    cases op with
    | puts msg => exact ⟨length_of_tputs (h0 _ hop) hcall, h0 _ hop⟩
    | clear => trivial
  obtain ⟨m', hm', hs'⟩ := runOps_some around hs htext
  obtain rfl := Option.some.inj (hm.symm.trans hm')
  exact hs'

lemma reached_init : Reached around (initTerminal 2 1 (fun _ => 0) 7 (.boot fun _ => 0)) :=
  ⟨2, 1, _, _, _, [], by omega, by omega, areaOk_boot _, by simp, rfl⟩

/-! ### When the call ends -/

/-- The loop ends, having handled the bytes of the string in order and each of them once, and
the call comes back. -/
structure Ends (around : ℤ → ℕ) (m : Machine) (msg : List UInt8) : Prop where
  loop : ∃ n m', tputsLoop around msg n 0 m = some m' ∧ handled msg n 0 = msg ∧
    msg.foldlM (tputsByte around) m = some m'
  back : ∃ m', tputs around m msg = some m'

/-- **Strings of up to 65535 bytes** are printed, and no longer ones. -/
theorem tputs_ends (h : Reached around m) (h0 : ∀ c ∈ msg, c ≠ 0) :
    Ends around m msg ↔ msg.length ≤ 65535 := by
  constructor
  · rintro ⟨-, m', hm⟩
    exact length_of_tputs h0 hm
  · intro hl
    have ht : IsText msg := ⟨hl, h0⟩
    obtain ⟨m₁, h₁, -⟩ := bytes_some around h.sound msg
    have hloop : tputsLoop around msg (msg.length + 1) 0 m = some m₁ := by
      rw [tputsLoop_eq around ht _ _ (Nat.zero_le _) (by omega), List.drop_zero, h₁]
    have hall : handled msg (msg.length + 1) 0 = msg := by
      rw [handled_eq ht _ _ (Nat.zero_le _) (by omega), List.drop_zero]
    have hbytes := tputsLoop_handled hloop
    rw [hall] at hbytes
    obtain ⟨m₂, h₂, -⟩ := tputs_some around h.sound ht
    exact ⟨⟨msg.length + 1, m₁, hloop, hall, hbytes⟩, m₂, h₂⟩

/-- A letter on a fresh terminal. -/
theorem tputs_ends_letter :
    Ends (fun _ => 0) (initTerminal 2 1 (fun _ => 0) 7 (.boot fun _ => 0)) [65] :=
  (tputs_ends reached_init (by simp)).mpr (by simp)

/-- 65536 letters are printed for ever. -/
theorem longText_endless : ¬ Ends (fun _ => 0)
    (initTerminal 2 1 (fun _ => 0) 7 (.boot fun _ => 0)) (List.replicate 65536 65) := by
  rintro ⟨⟨n, m', hm, -⟩, -⟩
  have h0 : ∀ c ∈ List.replicate 65536 (65 : UInt8), c ≠ 0 := fun c hc => by
    rw [List.eq_of_mem_replicate hc]
    decide
  rw [tputsLoop_long h0 (Nat.le_of_eq List.length_replicate.symm) n (Nat.zero_lt_succ _)] at hm
  cases hm

/-! ### The glyphs it looks up -/

/-- The indices at which one round reads `default_font`. -/
def byteReads (m : Machine) (c : UInt8) : List ℤ :=
  if c &&& 0xF0 = 0xF0 ∨ c = 10 ∨ c = 8 then []
  else
    match scrollIfBelow ⟨m.term.wrap, m.video⟩ with
    | none => []
    | some _ => [c.toInt8.toInt]

/-- The indices read in at most `n` rounds from index `i`. -/
def loopReads (around : ℤ → ℕ) (msg : List UInt8) : ℕ → ℕ → Machine → List ℤ
  | 0, _, _ => []
  | n + 1, i, m =>
    if msg.getD i 0 = 0 then []
    else
      byteReads m (msg.getD i 0) ++
        match tputsByte around m (msg.getD i 0) with
        | none => []
        | some m => loopReads around msg n (inc 16 i) m

/-- What stands around the font matters at the indices read outside of it only. -/
theorem tputsByte_congr {c : UInt8}
    (h : ∀ j ∈ byteReads m c, ¬ (0 ≤ j ∧ j < 128) → around j = around' j) :
    tputsByte around m c = tputsByte around' m c := by
  unfold tputsByte
  unfold byteReads at h
  by_cases hcol : c &&& 0xF0 = 0xF0
  · rw [if_pos hcol, if_pos hcol]
  by_cases hnl : c = 10
  · simp only [if_neg hcol, if_pos hnl]
  by_cases hbs : c = 8
  · simp only [if_neg hcol, if_neg hnl, if_pos hbs]
  · simp only [hcol, hnl, hbs, or_self, if_false] at h ⊢
    cases hs : scrollIfBelow ⟨m.term.wrap, m.video⟩ with
    | none => rfl
    | some m₁ =>
      rw [hs] at h
      have hfont : fontAt around c = fontAt around' c := by
        simp only [fontAt]
        split_ifs with hin
        · rfl
        · exact h _ (by simp) hin
      simp only [hfont]

/-- The index of a byte that is printed. -/
def fontReads (c : UInt8) : List ℤ :=
  if c &&& 0xF0 = 0xF0 ∨ c = 10 ∨ c = 8 then [] else [c.toInt8.toInt]

lemma byteReads_eq (h : Sound m) (c : UInt8) : byteReads m c = fontReads c := by
  unfold byteReads fontReads
  split_ifs with hc
  · rfl
  · obtain ⟨m', hm, -⟩ := tputsByte_some (fun _ => 0) h c
    simp only [not_or] at hc
    simp only [tputsByte, if_neg hc.1, if_neg hc.2.1, if_neg hc.2.2, Option.bind_eq_bind,
      Option.bind_eq_some_iff] at hm
    obtain ⟨m₁, hs, -⟩ := hm
    rw [hs]

lemma loopReads_eq (h : Sound m) (n i : ℕ) :
    loopReads around msg n i m = (handled msg n i).flatMap fontReads := by
  induction n generalizing i m with
  | zero => rfl
  | succ n ih =>
    rw [loopReads, handled]
    split_ifs with h0
    · rfl
    · obtain ⟨m', hm, hs⟩ := tputsByte_some around h (msg.getD i 0)
      rw [byteReads_eq h, hm, List.flatMap_cons]
      exact congrArg _ (ih hs _)

/-- The bytes from 0x80 to 0xEF are looked up in front of the font. -/
lemma fontReads_inside (c : UInt8) :
    (∀ j ∈ fontReads c, 0 ≤ j ∧ j ≤ 127) ↔ ¬ (0x80 ≤ c ∧ c ≤ 0xEF) :=
  byte_forall (fun c => (∀ j ∈ fontReads c, 0 ≤ j ∧ j ≤ 127) ↔ ¬ (0x80 ≤ c ∧ c ≤ 0xEF))
    (by decide +kernel) c

lemma mem_of_handled {n i : ℕ} {c : UInt8} (h : c ∈ handled msg n i) : c ∈ msg := by
  induction n generalizing i with
  | zero => exact absurd h List.not_mem_nil
  | succ n ih =>
    rw [handled] at h
    split_ifs at h with h0
    · exact absurd h List.not_mem_nil
    · rcases List.mem_cons.mp h with rfl | h
      · have hi : i < msg.length := by
          by_contra hge
          exact h0 (by simp [List.getD_eq_getElem?_getD, Nat.not_lt.mp hge])
        rw [List.getD_eq_getElem _ _ hi]
        exact List.getElem_mem hi
      · exact ih h

/-- Every byte that the index gets to is handled. -/
lemma handled_of_lt (h0 : ∀ c ∈ msg, c ≠ 0) {k i : ℕ} (hk : i + k < msg.length)
    (h16 : i + k < 65536) : msg[i + k] ∈ handled msg (k + 1) i := by
  induction k generalizing i with
  | zero =>
    have hc : msg.getD i 0 = msg[i] := List.getD_eq_getElem _ _ hk
    rw [handled, hc, if_neg (h0 _ (List.getElem_mem _))]
    exact List.mem_cons_self
  | succ k ih =>
    have hi : i < msg.length := by omega
    have hc : msg.getD i 0 = msg[i] := List.getD_eq_getElem _ _ hi
    rw [handled, hc, if_neg (h0 _ (List.getElem_mem hi)), inc_of_lt (by omega)]
    have := ih (i := i + 1) (by omega) (by omega)
    simp only [show i + (k + 1) = i + 1 + k by omega]
    exact List.mem_cons_of_mem _ this

/-- Every lookup of the call `SYS_WRITE` with the string at `buf` is inside the font. -/
def InFont (around : ℤ → ℕ) (k : Kernel) (buf : ℕ → UInt8) : Prop :=
  ∀ n, ∀ j ∈ loopReads around (textAt buf) n 0 k.machine, 0 ≤ j ∧ j ≤ 127

lemma textAt_bounds (buf : ℕ → UInt8) :
    (textAt buf).length ≤ 65536 ∧ ∀ c ∈ textAt buf, c ≠ 0 := by
  constructor
  · refine Nat.le_trans (List.takeWhile_prefix _).length_le ?_
    rw [List.length_map, List.length_range]
  · intro c hc
    simpa using List.mem_takeWhile_imp hc

/-- **The glyphs of a string** are looked up inside the font exactly when none of its bytes is
from 0x80 to 0xEF. -/
theorem glyphs_inside {k : Kernel} (h : Reached around k.machine) (buf : ℕ → UInt8) :
    InFont around k buf ↔ ∀ c ∈ textAt buf, ¬ (0x80 ≤ c ∧ c ≤ 0xEF) := by
  obtain ⟨hlen, h0⟩ := textAt_bounds buf
  simp only [InFont, loopReads_eq h.sound, List.mem_flatMap]
  constructor
  · intro hin c hc
    obtain ⟨i, hi, rfl⟩ := List.getElem_of_mem hc
    refine (fontReads_inside _).mp fun j hj => hin (i + 1) j ⟨_, ?_, hj⟩
    have := handled_of_lt h0 (i := 0) (k := i) (by omega) (by omega)
    simpa using this
  · rintro hall n j ⟨c, hc, hj⟩
    exact (fontReads_inside c).mpr (hall c (mem_of_handled hc)) j hj

lemma reached_boot (background : ℕ → UInt8) (mem : ℤ → UInt8) :
    Reached around (Kernel.boot background mem).machine :=
  ⟨16, 32, _, _, _, [], by omega, by omega, areaOk_boot mem, by simp, rfl⟩

/-- The letter `A` after the boot. -/
theorem glyphs_inside_letter :
    InFont (fun _ => 0) (.boot (fun _ => 0) fun _ => 0) (literal "A") := by
  refine (glyphs_inside (reached_boot _ _) _).mpr ?_
  rw [textAt_eq (isString_literal "A" (by simp [ascii])) (by decide)]
  intro c hc
  obtain rfl : c = 65 := by simpa [ascii] using hc
  decide

/-- The byte 0x80 after the boot reads 128 words in front of the font. -/
theorem highByte_outside :
    ¬ InFont (fun _ => 0) (.boot (fun _ => 0) fun _ => 0) fun n => [0x80].getD n 0 := by
  have hs : IsString (fun n => [(0x80 : UInt8)].getD n 0) 0 [0x80] := isString_getD (by simp)
  intro h
  have := h 1 (-128)
  rw [textAt_eq hs (by simp), loopReads_eq (sound_boot _ _)] at this
  exact absurd (this (by decide)).1 (by decide)

end Mono98.TputsLoop
