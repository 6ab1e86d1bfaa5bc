import Mono98.KeyboardRing
import Mono98.Lib.Acts

/-!
The polling build of `kgetline` against the keyboard controller.

In this build the loop asks the status port of the controller for a byte, and reads the data
port itself. The interrupt of the keyboard is not masked, and its handler reads the data port
too: a byte is passed on once by the two of them when neither reads a byte that the other has
read already.
-/

namespace Mono98.KeyboardPolling

open Mono98.Tty Mono98.Keyboard Mono98.KeyboardRing Mono98.Graphics Mono98.Lib.Acts

/-- Where the loop stands in `process_scancode(inb(0x60))`. -/
inductive Call
  | read -- `inb(0x60)`, and the call
  | body (scancode : UInt8) -- the `switch`, and the first statement of its case
  | store (scancode : UInt8) -- `scancode_buffer[scancode_write] = …`
  | advance -- `scancode_write = …`, and the return
  deriving DecidableEq

/-- The keyboard controller: the byte in its data port, the bit of its status port that says
that the byte is new, and its interrupt line. -/
structure Controller where
  data : UInt8
  status : Bool
  irq : Bool

/-- The variables of `kgetline`, the call it is in, and the controller. Beside them, the bytes
that the controller has delivered, and those that `process_scancode` has been called with. -/
structure State where
  loop : KeyboardRing.State
  call : Option Call
  controller : Controller
  delivered : List UInt8
  passed : List UInt8

def start (keys : Keys) (buffer : ℕ → UInt8) (m : Machine) (data : UInt8) : State :=
  ⟨KeyboardRing.start keys buffer m, none, ⟨data, false, false⟩, [], []⟩

/-- `inb(0x60)`: the status bit is cleared. -/
def Controller.read (c : Controller) : Controller := { c with status := false }

namespace State

variable (s : State)

/-- The loop goes on at `pc`. -/
def goes (pc : Pc) (call : Option Call) : State :=
  { s with loop := { s.loop with pc := pc }, call := call }

def setKeys (keys : Keys) (call : Option Call) : State :=
  { s with loop := { s.loop with keys := keys }, call := call }

variable (around : ℤ → ℕ) (echo : Bool) (capacity blinkTime : ℕ)

/-- The next statement of `process_scancode(inb(0x60))`. When it returns 1 the loop breaks to
the entries, and when it returns 0 it asks the status port again. -/
def nextCall : Call → State
  | .read =>
    { s with
      call := some (.body s.controller.data)
      controller := s.controller.read
      passed := s.passed ++ [s.controller.data] }
  | .body scancode =>
    let k := s.loop.keys
    if scancode = 0x36 ∨ scancode = 0x2A then (s.setKeys { k with shift := 1 } none).goes .wait none
    else if scancode = 0xAA ∨ scancode = 0xB6 then
      (s.setKeys { k with shift := 0 } none).goes .wait none
    else if scancode = 0x1D then (s.setKeys { k with ctrl := 1 } none).goes .wait none
    else if scancode = 0x9D then (s.setKeys { k with ctrl := 0 } none).goes .wait none
    else s.setKeys { k with bufempty := 0 } (some (.store scancode))
  | .store scancode =>
    let k := s.loop.keys
    let e := k.entry scancode
    let buffer := Function.update k.scancodeBuffer k.write e
    let s' := s.setKeys { k with scancodeBuffer := buffer } (some .advance)
    { s' with
      loop := { s'.loop with past := { s'.loop.past with logged := s'.loop.past.logged ++ [e] } } }
  | .advance =>
    let k := s.loop.keys
    (s.setKeys { k with write := bump k.write } none).goes .drain none

/-- The next step of the polling loop. It differs from the loop of the other build where that
one looks for entries in the ring. -/
def next : Option State :=
  match s.call with
  | some c => some (s.nextCall c)
  | none =>
    if s.loop.pc = .wait then
      -- `while (!(inb(0x64) & 1))`
      if s.controller.status then some { s with call := some .read }
      else
        (blink true s.loop.line.machine).map fun m =>
          { s with loop := s.loop.goes (.sleep true 0) { s.loop.line with machine := m } }
    else (s.loop.next around echo capacity blinkTime).map fun l => { s with loop := l }

/-- The keyboard interrupts: the handler reads the data port, and runs to its end. -/
def interrupt : State :=
  { s with
    loop := s.loop.interrupt s.controller.data
    controller := { s.controller.read with irq := false }
    passed := s.passed ++ [s.controller.data] }

/-- The controller delivers a byte. -/
def deliver (b : UInt8) : State :=
  { s with controller := ⟨b, true, true⟩, delivered := s.delivered ++ [b] }

end State

/-- The program takes a step, the handler of a raised interrupt runs, or the controller
delivers a byte, once the one before has been read. -/
inductive Act
  | next
  | interrupt
  | deliver (b : UInt8)

def act (around : ℤ → ℕ) (echo : Bool) (capacity blinkTime : ℕ) (s : State) : Act → Option State
  | .next => s.next around echo capacity blinkTime
  | .interrupt => if s.controller.irq then some s.interrupt else none
  | .deliver b => if s.controller.status then none else some (s.deliver b)

/-! ### The bytes -/

/-- Every byte delivered has been passed on once, in order, but for one that is still to be
read. -/
def Exactly (s : State) : Prop :=
  s.delivered = s.passed ++ if s.controller.status then [s.controller.data] else []

/-- The act reads the data port. -/
def Reads (s : State) : Act → Prop
  | .next => s.call = some .read
  | .interrupt => True
  | .deliver _ => False

/-- A read of the data port finds a new byte there. -/
def Fresh (s : State) (a : Act) : Prop := Reads s a → s.controller.status = true

variable {around : ℤ → ℕ} {echo : Bool} {capacity blinkTime : ℕ} {s s' : State} {a : Act}

/-- What an act does to the controller and to the bytes. -/
lemma act_cases (h : act around echo capacity blinkTime s a = some s') :
    Reads s a ∧ s'.controller.status = false ∧ s'.delivered = s.delivered ∧
      s'.passed = s.passed ++ [s.controller.data] ∨
    ¬ Reads s a ∧ s'.controller = s.controller ∧ s'.delivered = s.delivered ∧
      s'.passed = s.passed ∨
    ∃ b, a = .deliver b ∧ s.controller.status = false ∧ s' = s.deliver b := by
  cases a with
  | next =>
    have h : s.next around echo capacity blinkTime = some s' := h
    unfold State.next at h
    cases hc : s.call with
    | some c =>
      rw [hc] at h
      cases h
      cases c with
      | read => exact Or.inl ⟨hc, rfl, rfl, rfl⟩
      | body scancode =>
        refine Or.inr (Or.inl ⟨by simp [Reads, hc], ?_⟩)
        simp only [State.nextCall]
        split_ifs <;> exact ⟨rfl, rfl, rfl⟩
      | store scancode => exact Or.inr (Or.inl ⟨by simp [Reads, hc], rfl, rfl, rfl⟩)
      | advance => exact Or.inr (Or.inl ⟨by simp [Reads, hc], rfl, rfl, rfl⟩)
    | none =>
      rw [hc] at h
      refine Or.inr (Or.inl ⟨by simp [Reads, hc], ?_⟩)
      simp only at h
      split_ifs at h
      · cases h
        exact ⟨rfl, rfl, rfl⟩
      · obtain ⟨m, -, rfl⟩ := Option.map_eq_some_iff.mp h
        exact ⟨rfl, rfl, rfl⟩
      · obtain ⟨l, -, rfl⟩ := Option.map_eq_some_iff.mp h
        exact ⟨rfl, rfl, rfl⟩
  | interrupt =>
    simp only [act] at h
    split_ifs at h
    cases h
    exact Or.inl ⟨trivial, rfl, rfl, rfl⟩
  | deliver b =>
    simp only [act] at h
    split_ifs at h with hb
    cases h
    exact Or.inr (Or.inr ⟨b, rfl, by simpa using hb, rfl⟩)

/-- An act that reads a new byte, if it reads one, passes every byte on once. -/
lemma Exactly.act (h : Exactly s) (ha : Fresh s a)
    (hs : act around echo capacity blinkTime s a = some s') : Exactly s' := by
  unfold Exactly at h ⊢
  rcases act_cases hs with ⟨hr, hst, hd, hp⟩ | ⟨-, hc, hd, hp⟩ | ⟨b, rfl, hst, rfl⟩
  · rw [if_pos (ha hr)] at h
    rw [hd, hp, hst, h]
    simp
  · rw [hc, hd, hp]
    exact h
  · rw [hst] at h
    simp only [Bool.false_eq_true, if_false, List.append_nil] at h
    simp [State.deliver, h]

/-- A read of a byte that has been read before passes it on again. -/
lemma not_exactly (h : Exactly s) (ha : ¬ Fresh s a)
    (hs : act around echo capacity blinkTime s a = some s') : ¬ Exactly s' := by
  simp only [Fresh, Classical.not_imp, Bool.not_eq_true] at ha
  obtain ⟨hr, hst⟩ := ha
  unfold Exactly at h ⊢
  rw [hst] at h
  rcases act_cases hs with ⟨-, hst', hd, hp⟩ | ⟨hr', -⟩ | ⟨b, rfl, -⟩
  · rw [hst', hd, hp, h]
    simp
  · exact absurd hr hr'
  · exact absurd hr id

variable (around echo capacity blinkTime) in
/-- **The bytes of the polling build**: in every run, each byte delivered is passed to
`process_scancode` once, in order, exactly when every read of the data port, be it by the loop
or by the handler of the interrupt, finds the status bit set. -/
theorem polling_passes (keys : Keys) (buffer : ℕ → UInt8) (m : Machine) (data : UInt8)
    (acts : List Act) :
    Along (act around echo capacity blinkTime) (start keys buffer m data) acts Exactly ↔
      Meets (act around echo capacity blinkTime) (start keys buffer m data) acts Fresh :=
  ⟨Meets.of_along fun _ _ _ h ha hs => not_exactly h ha hs,
    Along.of_meets (B := fun _ => True) rfl (fun _ _ _ h ha hs _ => h.act ha hs)
      fun _ _ _ _ => trivial⟩

/-- An `A` comes, the loop sees it, the handler reads it, and then the loop. -/
theorem polling_passes_twice : ¬ Along (act (fun _ => 0) true 10 500000)
    (start ⟨fun _ => 7, 1, 3, 4, 0, 0⟩ (fun _ => 0)
      (initTerminal 2 1 (fun _ => 0) 7 (.boot fun _ => 0)) 0)
    [.deliver 0x1E, .next, .interrupt, .next] Exactly := by
  intro h
  have hs := h [.deliver 0x1E, .next, .interrupt, .next] _ (List.prefix_refl _) rfl
  exact absurd hs (by unfold Exactly; decide)

end Mono98.KeyboardPolling
