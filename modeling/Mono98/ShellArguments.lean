import Mono98.Quoting
import Mono98.ShellPrograms

/-!
Any arguments can be typed.

Every printable character has a key. Arguments that are quoted, joined and typed on the keyboard
come out again, as they were, as the arguments of the program that the first of them names.
-/

namespace Mono98.ShellArguments

open Mono98.Strings Mono98.Tty Mono98.Keyboard Mono98.LineInput Mono98.Process Mono98.Packer
open Mono98.Command Mono98.CommandRun Mono98.Tokens Mono98.Quoting Mono98.Shell
open Mono98.Console Mono98.ShellAnswer Mono98.ShellRefines Mono98.ShellRun Mono98.ShellInput
open Mono98.Graphics Mono98.Lib.Bytes Mono98.Lib.Word
open Mono98.RomdiskLookup (PackedFile)
open Mono98.KeyboardRing (start)

/-- The characters of ASCII from the space to the tilde. -/
def Printable (c : UInt8) : Prop := 32 ≤ c.toNat ∧ c.toNat ≤ 126

instance (c : UInt8) : Decidable (Printable c) := inferInstanceAs (Decidable (_ ∧ _))

/-- The scancodes of the tables. -/
def codes : List UInt8 := (List.range 84).map UInt8.ofNat

/-- The bytes of a character: the shift key is let go, or pressed, and then its key. -/
def press (c : UInt8) : List UInt8 :=
  match codes.find? fun b => kbdus b = c with
  | some b => [0xAA, b]
  | none =>
    match codes.find? fun b => shiftKbdus b = c with
    | some b => [0x2A, b]
    | none => []

def typing (line : List UInt8) : List UInt8 := line.flatMap press

/-- A scancode that puts its character behind the line. -/
structure Types (b : UInt8) : Prop where
  set : ¬ (b = 0x2A ∨ b = 0x36)
  clear : ¬ (b = 0xAA ∨ b = 0xB6)
  ctrl : ¬ (b = 0x1D ∨ b = 0x9D)
  key : kbdus b ≠ 0
  erase : kbdus b ≠ 8
  enter : b ≠ 0x1C

instance (b : UInt8) : Decidable (Types b) :=
  decidable_of_iff (¬ (b = 0x2A ∨ b = 0x36) ∧ ¬ (b = 0xAA ∨ b = 0xB6) ∧ ¬ (b = 0x1D ∨ b = 0x9D) ∧
      kbdus b ≠ 0 ∧ kbdus b ≠ 8 ∧ b ≠ 0x1C)
    ⟨fun ⟨h₁, h₂, h₃, h₄, h₅, h₆⟩ => ⟨h₁, h₂, h₃, h₄, h₅, h₆⟩,
      fun ⟨h₁, h₂, h₃, h₄, h₅, h₆⟩ => ⟨h₁, h₂, h₃, h₄, h₅, h₆⟩⟩

variable {c b : UInt8} {shift : Bool} {line pre : List UInt8}

/-- **Every printable character has a key.** -/
lemma press_eq (h : Printable c) : ∃ b ∈ codes, ∃ s : Bool,
    press c = [if s then 0x2A else 0xAA, b] ∧ Types b ∧
      (if s then shiftKbdus b else kbdus b) = c :=
  byte_forall (fun c => Printable c → ∃ b ∈ codes, ∃ s : Bool,
    press c = [if s then 0x2A else 0xAA, b] ∧ Types b ∧
      (if s then shiftKbdus b else kbdus b) = c) (by decide +kernel) c h

/-! ### Typing -/

lemma byte_shift (e : Editor) (s : Bool) :
    e.byte (if s then 0x2A else 0xAA) = { e with shift := s } := by
  cases s <;> rfl

lemma Types.byte (h : Types b) (e : Editor) : e.byte b =
    { e with line := e.line ++ [if e.shift then shiftKbdus b else kbdus b] } := by
  rw [Editor.byte, if_neg h.set, if_neg h.clear, if_neg h.ctrl, if_neg h.key, if_neg h.erase]

lemma typing_snoc (line : List UInt8) (c : UInt8) :
    typing (line ++ [c]) = typing line ++ press c := by
  rw [typing, List.flatMap_append, List.flatMap_singleton]
  rfl

/-- A part of what is typed is never longer than the line, and the whole of it is the line. -/
lemma editRaw_typing (h : ∀ c ∈ line, Printable c) : (editRaw shift (typing line)).line = line ∧
    ∀ pre, pre <+: typing line → (editRaw shift pre).line.length ≤ line.length := by
  induction line using List.reverseRecOn with
  | nil =>
    refine ⟨rfl, fun pre hp => ?_⟩
    rw [List.prefix_nil.mp hp]
    exact Nat.le_refl _
  | append_singleton line c ih =>
    obtain ⟨hline, hpre⟩ := ih fun c hc => h c (List.mem_append_left _ hc)
    obtain ⟨b, -, s, hpress, ht, hc⟩ := press_eq (h c (by simp))
    have hsnoc : typing (line ++ [c]) = (typing line ++ [if s then 0x2A else 0xAA]) ++ [b] := by
      rw [typing_snoc, hpress, List.append_assoc]
      rfl
    have hwhole : (editRaw shift (typing (line ++ [c]))).line = line ++ [c] := by
      rw [hsnoc, editRaw_snoc, editRaw_snoc, byte_shift, ht.byte, hline, hc]
    refine ⟨hwhole, fun pre hp => ?_⟩
    rw [hsnoc, List.prefix_concat_iff, ← hsnoc] at hp
    rcases hp with rfl | hp
    · rw [hwhole]
    rw [List.length_append]
    rcases List.prefix_concat_iff.mp hp with rfl | hp
    · rw [editRaw_snoc, byte_shift, hline]
      exact Nat.le_add_right _ _
    · exact (hpre pre hp).trans (Nat.le_add_right _ _)

lemma enter_typing (h : ∀ c ∈ line, Printable c) : 0x1C ∉ typing line := by
  intro hm
  obtain ⟨c, hc, hm⟩ := List.mem_flatMap.mp hm
  obtain ⟨b, -, s, hpress, ht, -⟩ := press_eq (h c hc)
  rw [hpress, List.mem_cons, List.mem_singleton] at hm
  rcases hm with hm | hm
  · cases s <;> cases hm
  · exact ht.enter hm.symm

lemma room_typing (h : ∀ c ∈ line, Printable c) (hlen : line.length ≤ maxLine) :
    ShellInput.Room shift (typing line) := fun pre hp _ =>
  ((editRaw_typing h).2 pre hp).trans hlen

/-! ### Quoted arguments -/

variable {args : List (List UInt8)}

/-- Quoted arguments are no built-in command, whatever they are. -/
lemma joinQuoted_head (h : args ≠ []) : ∃ s, joinQuoted 32 34 args = 34 :: s := by
  match args, h with
  | [t], _ => exact ⟨_, rfl⟩
  | t :: t' :: ts, _ => exact ⟨_, rfl⟩

lemma joinQuoted_printable (h : ∀ t ∈ args, ∀ c ∈ t, Printable c) :
    ∀ c ∈ joinQuoted 32 34 args, Printable c := by
  have hquote : ∀ t, (∀ c ∈ t, Printable c) → ∀ c ∈ quote 34 t, Printable c := by
    intro t ht c hc
    simp only [quote, List.mem_cons, List.mem_append, List.not_mem_nil, or_false] at hc
    rcases hc with rfl | hc | rfl
    · decide
    · exact ht c hc
    · decide
  induction args with
  | nil => simp [joinQuoted]
  | cons t ts ih =>
    have ht := hquote t (h t (by simp))
    cases ts with
    | nil => exact ht
    | cons t' ts =>
      intro c hc
      rw [joinQuoted, List.mem_append, List.mem_cons] at hc
      rcases hc with hc | rfl | hc
      · exact ht c hc
      · decide
      · exact ih (fun t ht => h t (List.mem_cons_of_mem _ ht)) c hc

lemma proper_joinQuoted (h : args ≠ []) (hq : ∀ t ∈ args, 34 ∉ t) (hcount : args.length ≤ 32)
    (hshort : ∀ t ∈ args, t.length ≤ 63) : Proper (joinQuoted 32 34 args) := by
  have htok : tokens 32 34 (joinQuoted 32 34 args) = args := tokens_joinQuoted (by decide) h hq
  obtain ⟨s, hs⟩ := joinQuoted_head h
  refine ⟨?_, ?_, ?_, ?_⟩
  · rw [hs]
    exact fun he => absurd (List.cons.inj he).1 (by decide)
  · rw [count_joinQuoted (by decide) hq]
    omega
  · rw [htok]
    exact hcount
  · rw [htok]
    exact hshort

/-- The console runs the file that the first argument names. -/
lemma reply_joinQuoted {files : List PackedFile} {f : PackedFile} (h : args ≠ [])
    (hq : ∀ t ∈ args, 34 ∉ t) (hf : fileNamed files (args.headD []) = some f)
    (hmagic : magicBytes <+: f.contents) : reply files (joinQuoted 32 34 args) = .launches f := by
  have htok : arguments (joinQuoted 32 34 args) = args := tokens_joinQuoted (by decide) h hq
  have hhead : ∀ w, w.head? ≠ some 34 → joinQuoted 32 34 args ≠ w := by
    rintro w hw rfl
    obtain ⟨s, hs⟩ := joinQuoted_head h
    rw [hs] at hw
    exact hw rfl
  rw [reply, if_neg (hhead _ (by decide)), if_neg (hhead _ (by decide)),
    if_neg (hhead _ (by decide)), programName, htok, hf]
  exact if_pos hmagic

/-! ### Programs -/

variable (around : ℤ → ℕ) (blinkTime : ℕ)
variable {fs : List UInt8 → Option (List UInt8)} {files : List PackedFile} {romdisk : ℕ → UInt8}
variable {k₀ k k₁ : Kernel} {keys : Keys} {buffer : ℕ → UInt8} {m : Machine} {f : PackedFile}

/-- **Any arguments can be typed.** Printable arguments without quotes have bytes on the
keyboard that bring them, unchanged, to the program that the first of them names, in any run,
with the shift key held before or not, and whatever the moments at which the bytes come in. -/
theorem arguments_typed (hd : Bootable fs files romdisk) (hk : Started around romdisk k₀ k)
    (run : Shell.Reaches around blinkTime romdisk (.prompt bootKeys k)
      (.typing (start keys buffer m) k₁))
    (hne : args ≠ []) (hprint : ∀ t ∈ args, ∀ c ∈ t, Printable c ∧ c ≠ 34)
    (hcount : args.length ≤ 32) (hshort : ∀ t ∈ args, t.length ≤ 63)
    (hlen : (joinQuoted 32 34 args).length ≤ maxLine)
    (hf : fileNamed files (args.headD []) = some f) (hmagic : magicBytes <+: f.contents) :
    ∀ rest s, Fed around true commandSize blinkTime (start keys buffer m)
      (typing (joinQuoted 32 34 args) ++ 0x1C :: rest) s →
        ∃ keys' entry k' resume,
          Goes around blinkTime romdisk (.typing s k₁) (.running keys' entry k' resume) ∧
            Loaded f args entry k' resume := by
  have hq : ∀ t ∈ args, 34 ∉ t := fun t ht hm => (hprint t ht 34 hm).2 rfl
  have hchars := joinQuoted_printable fun t ht c hc => (hprint t ht c hc).1
  have hline : (editRaw (shifted keys) (typing (joinQuoted 32 34 args))).line =
      joinQuoted 32 34 args := (editRaw_typing hchars).1
  obtain ⟨⟨p, mode⟩, -, hm⟩ := run_matches hd hk run
  obtain rfl : mode = .typing [] := matches_fresh hm
  intro rest s fed
  obtain ⟨keys', command, k', hgoes, hent⟩ := goes_entered hd (flags_fresh run) hm
    (enter_typing hchars) (room_typing hchars hlen)
    (by rw [hline]; exact proper_joinQuoted hne hq hcount hshort) fed
  rw [hline] at hent
  obtain ⟨o, ho, hb⟩ := matches_behind hd hent fun _ => 0
  have hgo : Next around blinkTime romdisk (.entered keys' command k') (behind keys' o) :=
    goes_behind ho
  have hargs : arguments (joinQuoted 32 34 args) = args := tokens_joinQuoted (by decide) hne hq
  rw [answer, reply_joinQuoted hne hq hf hmagic, hargs] at hb
  cases o with
  | back k' => cases hb
  | enters entry k₂ resume =>
    obtain ⟨g, args', hmode, hl⟩ := hb.loaded
    obtain ⟨rfl, rfl, -⟩ := Mode.running.inj hmode
    exact ⟨keys', entry, k₂, resume, hgoes.tail hgo, hl⟩

/-- The arguments `RUN` and `A B`. -/
theorem arguments_typed_two : ∃ romdisk k₁ s keys entry k' resume f,
    Goes (fun _ => 0) 500000 romdisk (.typing s k₁) (.running keys entry k' resume) ∧
      Loaded f [ascii "RUN", ascii "A B"] entry k' resume := by
  obtain ⟨romdisk, hd⟩ := bootable_programAndText
  obtain ⟨k₀, k, hk⟩ := started (fun _ => 0) hd (fun _ => 0) (fun _ => 0) fun _ => 0
  obtain ⟨command, k₁, run⟩ := asks 500000 hd hk
  have h := arguments_typed (fun _ => 0) 500000 hd hk run
    (show [ascii "RUN", ascii "A B"] ≠ [] by decide) (by decide +kernel) (by decide) (by decide)
    (by decide) rfl (by decide)
  obtain ⟨s, fed, -⟩ := fed_all bootKeys command k₁.machine
    (show (typing (joinQuoted 32 34 [ascii "RUN", ascii "A B"]) ++ 0x1C :: []).length ≤ 255
      by decide +kernel)
  obtain ⟨keys, entry, k', resume, hgoes, hl⟩ := h [] s fed
  exact ⟨romdisk, k₁, s, keys, entry, k', resume, _, hgoes, hl⟩

end Mono98.ShellArguments
