import Mathlib.Data.Fin.Basic
import Mathlib.Data.List.FinRange
import Mathlib.Logic.Function.Basic
import Mathlib.Tactic.Lemma

/-!
The interrupt controller 8259A, and two of them in cascade.

A controller is set up by initialization words, and takes a mask and the command that ends an
interrupt afterwards. It passes on the request of a line that is not masked, when no line of its
own or of a higher priority is in service. The output of the slave is line 2 of the master.
-/

namespace Mono98.Lib.Pic

/-- What a byte to the data port is: the mask, or an initialization word with more to come. -/
inductive Expects
  | mask
  | offset (cascade mode : Bool)
  | cascade (mode : Bool)
  | mode
  deriving DecidableEq

structure Chip where
  expects : Expects
  offset : UInt8
  mask : UInt8
  request : Fin 8 → Bool
  service : Fin 8 → Bool

namespace Chip

variable (c : Chip)

def masked (i : Fin 8) : Bool := c.mask.toNat.testBit i

/-- The request of the line can be passed on. -/
def ready (i : Fin 8) : Bool :=
  c.request i && !c.masked i && (List.finRange 8).all fun j => !(decide (j ≤ i) && c.service j)

/-- The line of the highest priority whose request can be passed on. -/
def output : Option (Fin 8) := (List.finRange 8).find? c.ready

/-- A byte to the command port: the first initialization word, or the end of the interrupt of
the highest priority that is in service. -/
def command (v : UInt8) : Chip :=
  if v &&& 0x10 ≠ 0 then
    { c with
      expects := .offset (v &&& 0x02 = 0) (v &&& 0x01 ≠ 0)
      mask := 0
      request := fun _ => false
      service := fun _ => false }
  else if v = 0x20 then
    match (List.finRange 8).find? c.service with
    | some i => { c with service := Function.update c.service i false }
    | none => c
  else c

/-- A byte to the data port. -/
def data (v : UInt8) : Chip :=
  match c.expects with
  | .mask => { c with mask := v }
  | .offset cascade mode =>
    { c with
      offset := v &&& 0xF8
      expects := if cascade then .cascade mode else if mode then .mode else .mask }
  | .cascade mode => { c with expects := if mode then .mode else .mask }
  | .mode => { c with expects := .mask }

/-- A line is raised. -/
def raise (i : Fin 8) : Chip := { c with request := Function.update c.request i true }

/-- The processor takes the request of a line. -/
def acknowledge (i : Fin 8) : Chip :=
  { c with
    request := Function.update c.request i false
    service := Function.update c.service i true }

/-- No interrupt is in service. -/
def Idle : Prop := ∀ i, c.service i = false

end Chip

variable {c : Chip} {i : Fin 8}

lemma idle_ready (h : c.Idle) : c.ready i = (c.request i && !c.masked i) := by
  have hall : ((List.finRange 8).all fun j => !(decide (j ≤ i) && c.service j)) = true := by
    rw [List.all_eq_true]
    intro j _
    rw [h j, Bool.and_false, Bool.not_false]
  rw [Chip.ready, hall, Bool.and_true]

/-- What is passed on is a request that is not masked. -/
lemma output_request (h : c.output = some i) : c.request i = true ∧ c.masked i = false := by
  have hr : c.ready i = true := List.find?_some h
  simp only [Chip.ready, Bool.and_eq_true, Bool.not_eq_true'] at hr
  exact hr.1

/-- A request that is not masked is passed on, or another one is, when none is in service. -/
lemma output_some (hidle : c.Idle) (hr : c.request i = true) (hm : c.masked i = false) :
    ∃ j, c.output = some j := by
  have hready : c.ready i = true := by rw [idle_ready hidle, hr, hm]; rfl
  cases ho : c.output with
  | none => exact absurd hready (List.find?_eq_none.mp ho i (List.mem_finRange i))
  | some j => exact ⟨j, rfl⟩

lemma find_update (i : Fin 8) :
    (List.finRange 8).find? (Function.update (fun _ => false) i true) = some i := by
  revert i
  decide

/-- The end of the only interrupt in service. -/
lemma acknowledge_end (h : c.Idle) (i : Fin 8) : (c.acknowledge i).command 0x20 =
    { c with request := Function.update c.request i false } := by
  have hservice : (c.acknowledge i).service = Function.update (fun _ => false) i true := by
    rw [Chip.acknowledge, funext h]
  have hback : Function.update (c.acknowledge i).service i false = c.service := by
    rw [Chip.acknowledge, Function.update_idem, ← h i, Function.update_eq_self]
  rw [Chip.command, if_neg (by decide), if_pos rfl, hservice, find_update, ← hservice]
  simp only [hback]
  rfl

/-! ### Two controllers -/

structure Pair where
  master : Chip
  slave : Chip

namespace Pair

variable (p : Pair)

/-- A byte to a port of the processor. -/
def outb (port : ℕ) (v : UInt8) : Pair :=
  if port = 0x20 then { p with master := p.master.command v }
  else if port = 0x21 then { p with master := p.master.data v }
  else if port = 0xA0 then { p with slave := p.slave.command v }
  else if port = 0xA1 then { p with slave := p.slave.data v }
  else p

/-- The mask of a controller, from its data port. -/
def inb (port : ℕ) : UInt8 :=
  if port = 0x21 then p.master.mask else if port = 0xA1 then p.slave.mask else 0

/-- A device raises its line; the lines from 8 on are those of the slave. -/
def raise (n : Fin 16) : Pair :=
  if h : n.val < 8 then { p with master := p.master.raise ⟨n, h⟩ }
  else { p with slave := p.slave.raise ⟨n - 8, by omega⟩ }

/-- The master, with the output of the slave on its line. -/
def wired : Chip :=
  { p.master with request := Function.update p.master.request 2 p.slave.output.isSome }

/-- The vector that the processor is given, and the controllers afterwards. -/
def interrupt : Option (ℕ × Pair) :=
  match p.wired.output with
  | none => none
  | some i =>
    if i = 2 then
      p.slave.output.map fun j : Fin 8 =>
        (p.slave.offset.toNat + j.val, ⟨p.wired.acknowledge 2, p.slave.acknowledge j⟩)
    else some (p.master.offset.toNat + i.val, ⟨p.master.acknowledge i, p.slave⟩)

end Pair

end Mono98.Lib.Pic
