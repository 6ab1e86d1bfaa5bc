import Mathlib.Algebra.Group.Nat.Defs
import Mathlib.Data.List.Induction
import Mono98.Lib.Fold
import Mono98.Lib.Pit

/-!
The speaker.

`play_sound` loads the divisor of a frequency and opens the gate of the speaker, `__asleep` lets
some time pass with the timer set to another rate meanwhile, and `nosound` closes the gate. The
divisor is cut to 16 bits, and a frequency of 0 is a division by zero.
-/

namespace Mono98.Audio

open Mono98.Lib.Fold Mono98.Lib.Pit

/-! ### The functions -/

def setPitFrequency (divisor : UInt16) (b : Board) : Board :=
  let b := b.outb 0x43 0x36
  let b := (b.outb 0x40 (divisor &&& 0xFF).toUInt8).pass
  (b.outb 0x40 ((divisor >>> 8) &&& 0xFF).toUInt8).pass

variable (realHardware : Bool)

/-- The argument of `__asleep` as it counts it. -/
def scaled (milliseconds : UInt32) : UInt32 :=
  if realHardware then milliseconds else milliseconds * 18

/-- `__asleep`. -/
def asleep (milliseconds : UInt32) (b : Board) : Board :=
  let milliseconds := scaled realHardware milliseconds
  let b := setPitFrequency (1193182 / 1000 * milliseconds).toUInt16 b
  let b := Board.pass^[(milliseconds * 100).toNat] b
  setPitFrequency 0xFFFF b

def playSound (frequency : UInt32) (b : Board) : Option Board :=
  if frequency = 0 then none
  else
    let div := 1193180 / frequency
    let b := b.outb 0x43 0xb6
    let b := b.outb 0x42 div.toUInt8
    let b := b.outb 0x42 (div >>> 8).toUInt8
    let tmp := b.portB
    some (if tmp ≠ tmp ||| 3 then b.outb 0x61 (tmp ||| 3) else b)

def nosound (b : Board) : Board := b.outb 0x61 (b.portB &&& 0xFC)

def beep (frequency milliseconds : UInt32) (b : Board) : Option Board := do
  let b ← playSound frequency b
  some (nosound (asleep realHardware milliseconds b))

/-- The loop of `play_fdfile` from index `i`, at most `n` rounds of it. The words are those that
stand in memory from the argument `data` itself on, and not those that it points to. -/
def playLoop (words : ℕ → UInt16) (length : UInt32) : ℕ → UInt32 → Board → Option Board
  | 0, _, _ => none
  | n + 1, i, b =>
    if i < length then
      (beep realHardware (words i.toNat).toUInt32 (words (i + 1).toNat).toUInt32 b).bind
        (playLoop words length n (i + 2))
    else some b

/-- An index that has not ended the loop in 2^31 rounds is back at 0. -/
def playFdfile (words : ℕ → UInt16) (length : UInt32) (b : Board) : Option Board :=
  playLoop realHardware words length (2 ^ 31) 0 b

/-- The notes of the start-up jingle of `kmain`. -/
def jingle : List (UInt32 × UInt32) :=
  (List.range 4).flatMap fun i =>
    let detuned := fun f : UInt32 => if i % 2 = 1 then f - 5 else f + 5
    [(detuned 2500, 350), (detuned 1000, 350), (detuned 2500, 350)]

/-- Beeps one after the other. -/
def play (notes : List (UInt32 × UInt32)) (b : Board) : Option Board :=
  notes.foldlM (fun b n => beep realHardware n.1 n.2 b) b

/-! ### One beep -/

variable {realHardware} {b b' : Board} {f ms : UInt32}

/-- The divisor that a frequency is played with. -/
def pitch (f : UInt32) : ℕ := divisorOf (1193180 / f.toNat % 65536)

/-- How often some time passes in `__asleep`. -/
def waits (realHardware : Bool) (ms : UInt32) : ℕ := 4 + (scaled realHardware ms * 100).toNat

lemma setPitFrequency_eq (divisor : UInt16) (b : Board) : setPitFrequency divisor b =
    { b with
      channel := Function.update b.channel 0 (squareWave divisor.toNat)
      heard := b.heard ++ [b.tone, b.tone] } := by
  have hbytes : (divisor &&& 0xFF).toUInt8.toNat +
      256 * ((divisor >>> 8) &&& 0xFF).toUInt8.toNat = divisor.toNat := by
    have hlt := divisor.toNat_lt
    have hlow : ∀ n : ℕ, (n &&& 255) % 256 = n % 256 := fun n => by
      rw [show 255 = 2 ^ 8 - 1 by rfl, Nat.and_two_pow_sub_one_eq_mod, Nat.mod_mod]
    simp only [UInt16.toNat_toUInt8, UInt16.toNat_and, UInt16.toNat_shiftRight]
    simp only [UInt16.reduceToNat, Nat.reducePow, Nat.reduceMod, hlow,
      Nat.shiftRight_eq_div_pow]
    omega
  have hlow := command_low b 0 0x36 (divisor &&& 0xFF).toUInt8 rfl
  have hhigh := write_high { b with heard := b.heard ++ [b.tone] } b.channel 0
    (divisor &&& 0xFF).toUInt8 ((divisor >>> 8) &&& 0xFF).toUInt8
  have hpass := pass_update { b with heard := b.heard ++ [b.tone] } (i := 0) (by decide)
    (squareWave divisor.toNat)
  rw [hbytes] at hhigh
  simp only [setPitFrequency, outb_command, outb_rate, hlow, pass_update b (i := 0) (by decide)]
  rw [hhigh, hpass]
  simp only [List.append_assoc, List.singleton_append]
  rfl

/-- `__asleep` lets time pass, and leaves the timer at the divisor 65535. The slowest rate is the
one of 65536, for which a 0 would have to be written. -/
lemma asleep_eq (ms : UInt32) (b : Board) : asleep realHardware ms b =
    { b with
      channel := Function.update b.channel 0 (squareWave 65535)
      heard := b.heard ++ List.replicate (waits realHardware ms) b.tone } := by
  have htone := fun (heard : List (Option ℕ)) (c : Channel) =>
    tone_update { b with heard := heard } (i := 0) (by decide) c
  have hwaits : [b.tone, b.tone] ++ (List.replicate (scaled realHardware ms * 100).toNat b.tone ++
      [b.tone, b.tone]) = List.replicate (waits realHardware ms) b.tone := by
    rw [show [b.tone, b.tone] = List.replicate 2 b.tone from rfl, List.replicate_append_replicate,
      List.replicate_append_replicate, waits]
    congr 1
    omega
  simp only at htone
  have hrest : ∀ heard, Board.tone ⟨b.channel, b.portB, heard⟩ = b.tone := fun _ => rfl
  rw [asleep, setPitFrequency_eq, pass_iterate, setPitFrequency_eq]
  simp only [htone, hrest, Function.update_idem, List.append_assoc, hwaits]
  rfl

lemma playSound_eq (hf : f ≠ 0) (b : Board) : playSound f b = some
    { b with
      channel := Function.update b.channel 2 (squareWave (1193180 / f.toNat % 65536))
      portB := b.portB ||| 3 } := by
  have hbytes : (1193180 / f).toUInt8.toNat + 256 * ((1193180 / f) >>> 8).toUInt8.toNat =
      1193180 / f.toNat % 65536 := by
    simp only [UInt32.toNat_toUInt8, UInt32.toNat_shiftRight, UInt32.toNat_div]
    simp only [UInt32.reduceToNat, Nat.reducePow, Nat.reduceMod, Nat.shiftRight_eq_div_pow]
    omega
  have hlow := command_low b 2 0xb6 (1193180 / f).toUInt8 rfl
  have hport : ∀ (c : Fin 3 → Channel), (if b.portB ≠ b.portB ||| 3 then
      Board.outb ⟨c, b.portB, b.heard⟩ 0x61 (b.portB ||| 3) else ⟨c, b.portB, b.heard⟩) =
        ⟨c, b.portB ||| 3, b.heard⟩ := by
    intro c
    split_ifs with h
    · rfl
    · rw [← not_not.mp h]
  simp only [playSound, if_neg hf, outb_command, outb_pitch, hlow, write_high b b.channel, hbytes]
  exact congrArg some (hport _)

/-- The gate is open or closed, and the other bits of port B are left alone. -/
lemma gate (v : UInt8) : (v ||| 3) &&& 3 = 3 ∧ (v &&& 0xFC) &&& 3 = 0 ∧
    (v ||| 3) &&& 0xFC = v &&& 0xFC := by
  have hall : ∀ n : Fin 256, (UInt8.ofFin n ||| 3) &&& 3 = 3 ∧ (UInt8.ofFin n &&& 0xFC) &&& 3 = 0 ∧
      (UInt8.ofFin n ||| 3) &&& 0xFC = UInt8.ofFin n &&& 0xFC := by decide +kernel
  exact hall v.toFin

/-- **One beep**: the speaker sounds from the first moment to the last, and is off afterwards. -/
lemma beep_eq (hf : f ≠ 0) (ms : UInt32) (b : Board) : beep realHardware f ms b = some
    { channel := Function.update (Function.update b.channel 2
        (squareWave (1193180 / f.toNat % 65536))) 0 (squareWave 65535)
      portB := b.portB &&& 0xFC
      heard := b.heard ++ List.replicate (waits realHardware ms) (some (pitch f)) } := by
  obtain ⟨hopen, -, hkept⟩ := gate b.portB
  have htone : ∀ heard, Board.tone ⟨Function.update b.channel 2
      (squareWave (1193180 / f.toNat % 65536)), b.portB ||| 3, heard⟩ = some (pitch f) := by
    intro heard
    simp only [Board.tone, if_pos hopen, Function.update_self]
    rfl
  rw [beep, playSound_eq hf, Option.bind_eq_bind, Option.bind_some, asleep_eq, nosound, outb_portB]
  simp only [htone, hkept]

/-- The pitch is the one that was asked for. -/
lemma pitch_exact (hf : f ≠ 0) :
    pitch f = 1193180 / f.toNat ↔ 19 ≤ f.toNat ∧ f.toNat ≤ 1193180 := by
  have hpos : 0 < f.toNat := Nat.pos_of_ne_zero fun h => hf (UInt32.toNat_inj.mp h)
  have hle : ∀ k, k ≤ 1193180 / f.toNat ↔ k * f.toNat ≤ 1193180 := fun k =>
    Nat.le_div_iff_mul_le hpos
  have h65536 := hle 65536
  have h1 := hle 1
  unfold pitch divisorOf
  constructor
  · intro h
    split_ifs at h with h0
    · have h65537 := hle 65537
      omega
    · have hlt : 1193180 / f.toNat < 65536 := by omega
      constructor <;> omega
  · rintro ⟨hlo, hhi⟩
    have hlt : 1193180 / f.toNat < 65536 := by omega
    rw [Nat.mod_eq_of_lt hlt, if_neg (by omega)]

/-! ### Beeps in a row -/

/-- What is heard of a row of notes. -/
def sounds (realHardware : Bool) (notes : List (UInt32 × UInt32)) : List (Option ℕ) :=
  notes.flatMap fun n => List.replicate (waits realHardware n.2) (some (pitch n.1))

/-- What a row of notes has done: every note has been heard, in order and without a gap, and after
them the speaker is off. The channel that refreshes the memory and the other bits of port B are as
they were. -/
structure Played (realHardware : Bool) (notes : List (UInt32 × UInt32)) (b b' : Board) : Prop where
  heard : b'.heard = b.heard ++ sounds realHardware notes
  refresh : b'.channel 1 = b.channel 1
  portB : b'.portB &&& 0xFC = b.portB &&& 0xFC
  silent : notes ≠ [] → b'.tone = none
  rate : notes ≠ [] → b'.channel 0 = squareWave 65535

variable {notes : List (UInt32 × UInt32)}

variable (realHardware) in
lemma beep_played (hf : f ≠ 0) (ms : UInt32) (b : Board) :
    ∃ b', beep realHardware f ms b = some b' ∧ Played realHardware [(f, ms)] b b' := by
  obtain ⟨-, hclosed, -⟩ := gate b.portB
  refine ⟨_, beep_eq hf ms b, ⟨?_, rfl, ?_, fun _ => ?_, fun _ => rfl⟩⟩
  · simp only [sounds, List.flatMap_cons, List.flatMap_nil, List.append_nil]
  · rw [UInt8.and_assoc]
    rfl
  · simp only [Board.tone, hclosed]
    exact if_neg (by decide)

lemma beep_zero (ms : UInt32) (b : Board) : beep realHardware 0 ms b = none := rfl

/-- One more note. -/
lemma Played.snoc {n : UInt32 × UInt32} {b'' : Board} (h : Played realHardware notes b b')
    (h' : Played realHardware [n] b' b'') : Played realHardware (notes ++ [n]) b b'' := by
  have hne : [n] ≠ [] := List.cons_ne_nil n []
  refine ⟨?_, h'.refresh.trans h.refresh, h'.portB.trans h.portB, fun _ => h'.silent hne,
    fun _ => h'.rate hne⟩
  rw [h'.heard, h.heard, List.append_assoc, sounds, sounds, sounds, List.flatMap_append]

variable (realHardware) in
lemma play_some (hn : ∀ n ∈ notes, n.1 ≠ 0) (b : Board) :
    ∃ b', play realHardware notes b = some b' ∧ Played realHardware notes b b' := by
  induction notes using List.reverseRecOn with
  | nil => exact ⟨b, rfl, (List.append_nil _).symm, rfl, rfl, fun h => absurd rfl h,
      fun h => absurd rfl h⟩
  | append_singleton notes n ih =>
    obtain ⟨b₁, h₁, hp₁⟩ := ih fun m hm => hn m (List.mem_append_left _ hm)
    obtain ⟨b₂, h₂, hp₂⟩ := beep_played realHardware
      (hn n (List.mem_append_right _ List.mem_cons_self)) n.2 b₁
    refine ⟨b₂, ?_, hp₁.snoc hp₂⟩
    rw [play] at h₁
    rw [play, List.foldlM_append, h₁, Option.bind_eq_bind, Option.bind_some, List.foldlM_cons, h₂]
    rfl

/-- **What is heard.** From any state of the timer and the speaker, a row of beeps comes back
unless a frequency is 0; then every note has been heard from its first moment to its last, and
the speaker is off. A note is the nearest divisor below the frequency exactly for frequencies from
19 to 1193180: the divisor of a lower one is cut off, and a higher one gives the lowest pitch. -/
theorem play_heard (realHardware : Bool) (notes : List (UInt32 × UInt32)) (b : Board) :
    (play realHardware notes b = none ↔ ∃ n ∈ notes, n.1 = 0) ∧
      (∀ b' ∈ play realHardware notes b, Played realHardware notes b b') ∧
      ∀ n ∈ notes, n.1 ≠ 0 →
        (pitch n.1 = 1193180 / n.1.toNat ↔ 19 ≤ n.1.toNat ∧ n.1.toNat ≤ 1193180) := by
  refine ⟨⟨fun h => ?_, ?_⟩, fun b' hb => ?_, fun n _ hn => ?_⟩
  · by_contra hne
    have hn : ∀ n ∈ notes, n.1 ≠ 0 := fun n hn h0 => hne ⟨n, hn, h0⟩
    obtain ⟨b', hb, -⟩ := play_some realHardware hn b
    rw [h] at hb
    cases hb
  · rintro ⟨⟨f, ms⟩, hn, rfl⟩
    cases hp : play realHardware notes b with
    | none => rfl
    | some b' =>
      obtain ⟨c, c', hc⟩ := foldlM_each hp hn
      rw [beep_zero] at hc
      cases hc
  · have hn : ∀ n ∈ notes, n.1 ≠ 0 := by
      rintro ⟨f, ms⟩ hn rfl
      obtain ⟨c, c', hc⟩ := foldlM_each hb hn
      rw [beep_zero] at hc
      cases hc
    obtain ⟨b₁, hb₁, hp⟩ := play_some realHardware hn b
    obtain rfl := Option.some.inj (hb.symm.trans hb₁)
    exact hp
  · exact pitch_exact hn

/-- The jingle sounds for its twelve notes. -/
theorem play_heard_jingle : ∃ b b', play false jingle b = some b' ∧ b'.tone = none ∧
    b'.heard = sounds false jingle := by
  obtain ⟨-, hplayed, -⟩ := play_heard false jingle ⟨fun _ => ⟨0, 0, none, none⟩, 0xFF, []⟩
  have hall : jingle.all (fun n => decide (n.1 ≠ 0)) = true := by decide
  have hnotes : ∀ n ∈ jingle, n.1 ≠ 0 := fun n hn =>
    of_decide_eq_true (List.all_eq_true.mp hall n hn)
  obtain ⟨b', hb, -⟩ := play_some false hnotes ⟨fun _ => ⟨0, 0, none, none⟩, 0xFF, []⟩
  have hp := hplayed b' hb
  exact ⟨_, b', hb, hp.silent (List.cons_ne_nil _ _), hp.heard.trans (List.nil_append _)⟩

/-! ### Files -/

/-- The notes that stand behind the argument. -/
def wordNotes (words : ℕ → UInt16) (j : ℕ) : UInt32 × UInt32 :=
  ((words (2 * j)).toUInt32, (words (2 * j + 1)).toUInt32)

variable (realHardware) in
/-- The loop from the note `k` on. -/
lemma playLoop_eq (words : ℕ → UInt16) {length : UInt32} (hlen : length.toNat + 1 < 2 ^ 32)
    (n k : ℕ) (hk : 2 * k ≤ length.toNat + 1) (hn : (length.toNat + 1) / 2 < n + k) (b : Board) :
    playLoop realHardware words length n (UInt32.ofNat (2 * k)) b =
      play realHardware
        (((List.range ((length.toNat + 1) / 2)).drop k).map (wordNotes words)) b := by
  induction n generalizing k b with
  | zero => omega
  | succ n ih =>
    have hi : (UInt32.ofNat (2 * k)).toNat = 2 * k :=
      UInt32.toNat_ofNat_of_lt (show 2 * k < 2 ^ 32 by omega)
    rw [playLoop]
    by_cases hlt : 2 * k < length.toNat
    · have hk' : k < (List.range ((length.toNat + 1) / 2)).length := by
        rw [List.length_range]
        omega
      have hi1 : (UInt32.ofNat (2 * k) + 1).toNat = 2 * k + 1 := by
        rw [UInt32.toNat_add, hi]
        exact Nat.mod_eq_of_lt (by simp only [UInt32.toNat_one]; omega)
      have hi2 : UInt32.ofNat (2 * k) + 2 = UInt32.ofNat (2 * (k + 1)) :=
        (UInt32.ofNat_add _ _).symm
      rw [if_pos (UInt32.lt_iff_toNat_lt.mpr (by rw [hi]; exact hlt)), hi, hi1, hi2,
        List.drop_eq_getElem_cons hk', List.getElem_range, List.map_cons, play, List.foldlM_cons]
      exact congrArg (Option.bind _) (funext fun b => ih (k + 1) (by omega) (by omega) b)
    · rw [if_neg (by rw [UInt32.lt_iff_toNat_lt, hi]; exact hlt),
        List.drop_of_length_le (by rw [List.length_range]; omega)]
      rfl

/-- `play_fdfile` plays the words of its own frame: what `data` points to is never looked at. -/
theorem playFdfile_eq (words : ℕ → UInt16) {length : UInt32} (hlen : length.toNat + 1 < 2 ^ 32)
    (b : Board) : playFdfile realHardware words length b =
      play realHardware ((List.range ((length.toNat + 1) / 2)).map (wordNotes words)) b := by
  have h := playLoop_eq realHardware words hlen (2 ^ 31) 0 (Nat.zero_le _)
    (by omega) b
  have hzero : UInt32.ofNat (2 * 0) = 0 := rfl
  rw [hzero, List.drop_zero] at h
  rw [playFdfile]
  exact h

end Mono98.Audio
