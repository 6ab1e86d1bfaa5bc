import Mathlib.Data.Fin.Basic
import Mathlib.Logic.Function.Basic
import Mathlib.Tactic.Lemma

/-!
The interval timer 8254, and the speaker that its channel 2 drives.

A command selects the mode of a channel and which bytes of its divisor follow; the channel is
stopped until they have come. The lower bits of port B open the gate of channel 2 and pass its
output to the speaker. What can be heard is noted each time that some time passes.
-/

namespace Mono98.Lib.Pit

/-- A channel: `access` says which bytes of the divisor follow a command, `low` is one that waits
for the other, and `divisor` what the channel has been loaded with. -/
structure Channel where
  access : ℕ
  mode : ℕ
  low : Option UInt8
  divisor : Option ℕ

namespace Channel

variable (c : Channel)

/-- The divisor 0 stands for 65536. -/
def load (n : ℕ) : Channel :=
  { c with low := none, divisor := some (if n = 0 then 65536 else n) }

/-- A byte to the port of the channel. -/
def data (v : UInt8) : Channel :=
  if c.access = 1 then c.load v.toNat
  else if c.access = 2 then c.load (256 * v.toNat)
  else
    match c.low with
    | none => { c with low := some v }
    | some low => c.load (low.toNat + 256 * v.toNat)

/-- The rate of a channel that makes a square wave. -/
def square : Option ℕ := if c.mode % 4 = 3 then c.divisor else none

end Channel

/-- The timer, port B, and what has been heard: a divisor, or silence. -/
structure Board where
  channel : Fin 3 → Channel
  portB : UInt8
  heard : List (Option ℕ)

namespace Board

variable (b : Board)

/-- A command to the timer: it selects a channel, the access and the mode; the other commands
read. -/
def command (v : UInt8) : Board :=
  if h : v.toNat / 64 < 3 then
    if v.toNat / 16 % 4 = 0 then b
    else
      let c : Channel := ⟨v.toNat / 16 % 4, v.toNat / 2 % 8, none, none⟩
      { b with channel := Function.update b.channel ⟨v.toNat / 64, h⟩ c }
  else b

def write (i : Fin 3) (v : UInt8) : Board :=
  { b with channel := Function.update b.channel i ((b.channel i).data v) }

def outb (port : ℕ) (v : UInt8) : Board :=
  if port = 0x40 then b.write 0 v
  else if port = 0x41 then b.write 1 v
  else if port = 0x42 then b.write 2 v
  else if port = 0x43 then b.command v
  else if port = 0x61 then { b with portB := v }
  else b

/-- What the speaker makes. -/
def tone : Option ℕ := if b.portB &&& 3 = 3 then (b.channel 2).square else none

/-- Some time passes. -/
def pass : Board := { b with heard := b.heard ++ [b.tone] }

end Board

variable {b : Board}

lemma outb_rate (b : Board) (v : UInt8) : b.outb 0x40 v = b.write 0 v := rfl
lemma outb_pitch (b : Board) (v : UInt8) : b.outb 0x42 v = b.write 2 v := rfl
lemma outb_command (b : Board) (v : UInt8) : b.outb 0x43 v = b.command v := rfl
lemma outb_portB (b : Board) (v : UInt8) : b.outb 0x61 v = { b with portB := v } := rfl

/-- While nothing is sent, the sound goes on. -/
lemma pass_iterate (b : Board) (n : ℕ) :
    Board.pass^[n] b = { b with heard := b.heard ++ List.replicate n b.tone } := by
  induction n with
  | zero => rw [Function.iterate_zero_apply, List.replicate_zero, List.append_nil]
  | succ n ih =>
    rw [Function.iterate_succ_apply', ih, Board.pass, List.append_assoc, List.replicate_succ']
    rfl

/-- A divisor as a channel takes it. -/
def divisorOf (n : ℕ) : ℕ := if n = 0 then 65536 else n

/-- A channel that makes a square wave. -/
def squareWave (n : ℕ) : Channel := ⟨3, 3, none, some (divisorOf n)⟩

/-- The command for a square wave whose divisor comes in two bytes, and the first of them. -/
lemma command_low (b : Board) (i : Fin 3) (v lo : UInt8) (hv : v.toNat = 64 * i.val + 0x36) :
    (b.command v).write i lo =
      { b with channel := Function.update b.channel i ⟨3, 3, some lo, none⟩ } := by
  have hlt : v.toNat / 64 < 3 := by omega
  have hfin : (⟨v.toNat / 64, hlt⟩ : Fin 3) = i := Fin.ext (show v.toNat / 64 = i.val by omega)
  have hcommand : b.command v =
      { b with channel := Function.update b.channel i ⟨3, 3, none, none⟩ } := by
    rw [Board.command, dif_pos hlt, if_neg (by omega), hfin, show v.toNat / 16 % 4 = 3 by omega,
      show v.toNat / 2 % 8 = 3 by omega]
  have hlo : Channel.data ⟨3, 3, none, none⟩ lo = ⟨3, 3, some lo, none⟩ := rfl
  rw [hcommand]
  simp only [Board.write, Function.update_self, Function.update_idem, hlo]

/-- The second one. -/
lemma write_high (b : Board) (c : Fin 3 → Channel) (i : Fin 3) (lo hi : UInt8) :
    { b with channel := Function.update c i ⟨3, 3, some lo, none⟩ : Board }.write i hi =
      { b with channel := Function.update c i (squareWave (lo.toNat + 256 * hi.toNat)) } := by
  have hhi : Channel.data ⟨3, 3, some lo, none⟩ hi = squareWave (lo.toNat + 256 * hi.toNat) := rfl
  simp only [Board.write, Function.update_self, Function.update_idem, hhi]

/-- The other channels do not reach the speaker. -/
lemma tone_update (b : Board) {i : Fin 3} (hi : i ≠ 2) (c : Channel) :
    Board.tone { b with channel := Function.update b.channel i c } = b.tone := by
  simp only [Board.tone, Function.update_of_ne hi.symm]

/-- Some time passes after a byte to one of them. -/
lemma pass_update (b : Board) {i : Fin 3} (hi : i ≠ 2) (c : Channel) :
    Board.pass { b with channel := Function.update b.channel i c } =
      { b with channel := Function.update b.channel i c, heard := b.heard ++ [b.tone] } := by
  rw [Board.pass, tone_update b hi]

end Mono98.Lib.Pit
