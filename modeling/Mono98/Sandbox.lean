import Mono98.Command
import Mono98.KeyboardRing
import Mono98.Lib.Acts
import Mono98.TtyRun

/-!
`text_sandbox` against the keyboard interrupt.

Each pass of the sandbox sets out to echo the entries that are pending, and counts through the
ring with the test `i < scancode_write`. The order of two indices of a ring says nothing once
the writer is around the end: the pass stops there, with entries pending, where the drain loop
of `kgetline` with its `i != scancode_write` goes on.
-/

namespace Mono98.Sandbox

open Mono98.Graphics Mono98.Tty Mono98.TtyRun Mono98.Keyboard Mono98.Process Mono98.Command
open Mono98.Lib.Ring Mono98.Lib.Acts
open Mono98.KeyboardRing (History Ring bump_mod processScancode_cases)

/-- Where `text_sandbox` stands. -/
inductive Pc
  | wait -- `while (scancode_read == scancode_write)`
  | init -- `i = scancode_read`
  | test -- `i < scancode_write`
  | fetch -- `scancode = scancode_buffer[i]`
  | put (scancode : UInt16) -- `kputc(…)`
  | advance -- `i++, scancode_read = …`
  deriving DecidableEq

/-- The variables, and beside them what has happened: the log and how far it has been read and
echoed, the end of the log when the pass began, and the steps taken since. -/
structure State where
  pc : Pc
  keys : Keys
  i : ℕ
  kernel : Kernel
  past : History
  goal : ℕ
  steps : ℕ

namespace State

variable (s : State) (around : ℤ → ℕ)

/-- `i = scancode_read`: a pass begins. -/
def begins : State :=
  { s with pc := .test, i := s.keys.read, goal := s.past.logged.length, steps := 0 }

/-- `scancode = scancode_buffer[i]`. -/
def fetches : State :=
  let e := s.keys.scancodeBuffer s.i
  { s with pc := .put e, past := { s.past with reads := [e] }, steps := s.steps + 1 }

/-- `kputc(…)` has come back with a kernel. -/
def handles (e : UInt16) (k : Kernel) : State :=
  { s with
    pc := .advance
    kernel := k
    past := { s.past with handled := s.past.handled ++ [e] }
    steps := s.steps + 1 }

/-- `i++, scancode_read = (scancode_read + 1) % sizeof(scancode_buffer)`. -/
def advances : State :=
  { s with
    pc := .test
    i := (s.i + 1) % 2 ^ 8
    keys := { s.keys with read := bump s.keys.read }
    past := { s.past with taken := s.past.taken + 1 }
    steps := s.steps + 1 }

/-- The next step of `text_sandbox`. -/
def next : Option State :=
  match s.pc with
  | .wait => some { s with pc := if s.keys.read = s.keys.write then .wait else .init }
  | .init => some s.begins
  | .test =>
    if s.i < s.keys.write then some { s with pc := .fetch, steps := s.steps + 1 }
    else some { s with pc := .wait }
  | .fetch => some s.fetches
  | .put e => (kputc around s.kernel (charOf e)).map (s.handles e)
  | .advance => some s.advances

/-- The keyboard interrupts. -/
def interrupt (scancode : UInt8) : State :=
  let (keys, isLogged) := processScancode s.keys scancode
  { s with
    keys := keys
    past := { s.past with
      logged := if isLogged then s.past.logged ++ [s.keys.entry scancode] else s.past.logged } }

/-- At most 255 entries lie between `scancode_read` and `scancode_write`. -/
def Bounded : Prop := s.past.logged.length ≤ s.past.taken + 255

end State

/-- The program takes a step, or the keyboard interrupts it. -/
inductive Act
  | next
  | interrupt (scancode : UInt8)

def act (around : ℤ → ℕ) (s : State) : Act → Option State
  | .next => s.next around
  | .interrupt scancode => some (s.interrupt scancode)

/-- The state in which the shell calls `text_sandbox`. -/
def start (keys : Keys) (k : Kernel) (p : History) : State := ⟨.wait, keys, 0, k, p, p.taken, 0⟩

/-! ### The order of the entries -/

/-- What the place in the program says about the local variables and about the past. -/
structure Place (pc : Pc) (i : ℕ) (p : History) : Prop where
  handled : p.handled = p.logged.take (if pc = .advance then p.taken + 1 else p.taken)
  loop : pc ≠ .wait → pc ≠ .init → i = p.taken % 256
  pending : pc ≠ .wait → pc ≠ .init → pc ≠ .test → p.taken < p.logged.length
  entry : ∀ e, pc = .put e → p.logged[p.taken]? = some e

structure Inv (s : State) : Prop where
  ring : Ring s.keys s.past
  place : Place s.pc s.i s.past
  bound : s.Bounded
  sound : Sound s.kernel.machine

variable {s s' : State} {pc q : Pc} {i : ℕ} {p : History} {keys : Keys} {k : Kernel}
variable {around : ℤ → ℕ} {acts : List Act}

/-- A terminator alone prints nothing, and refreshes the screen. -/
lemma tputs_nul (around : ℤ → ℕ) (m : Machine) :
    tputs around m [0] = (refreshTerminal m.term false m.video).map (Machine.mk m.term) := by
  have hloop : ∀ n, tputsLoop around [0] (n + 1) 0 m = some m := fun n => if_pos rfl
  rw [tputs, hloop 65535]
  simp only [Option.bind_eq_bind, Option.bind_some]
  cases refreshTerminal m.term false m.video <;> rfl

variable (around) in
/-- The character of an entry is printed, or nothing for a key without one. -/
lemma kputc_some (h : Sound k.machine) (c : UInt8) :
    ∃ k', kputc around k c = some k' ∧ Sound k'.machine := by
  obtain ⟨m, hm, hs⟩ : ∃ m, tputs around k.machine [c] = some m ∧ Sound m := by
    by_cases h0 : c = 0
    · subst h0
      obtain ⟨xs, hl⟩ := h.listed
      obtain ⟨v, hv, ha⟩ := refreshTerminal_some hl h.draws false h.area
      exact ⟨⟨k.machine.term, v⟩, by rw [tputs_nul, hv]; rfl, h.toShaped, h.draws, ha⟩
    · exact tputs_some around h ⟨by simp, by simp [h0]⟩
  exact ⟨{ k with machine := m }, by rw [kputc, kputs, hm]; rfl, hs⟩

/-- Between two places where the index and the past stay the same. -/
lemma Place.move (h : Place pc i p) (ha : pc ≠ .advance) (ha' : q ≠ .advance)
    (hl : q ≠ .wait → q ≠ .init → pc ≠ .wait ∧ pc ≠ .init)
    (hp : q ≠ .wait → q ≠ .init → q ≠ .test → p.taken < p.logged.length)
    (he : ∀ e, q ≠ .put e) : Place q i p where
  handled := by rw [h.handled, if_neg ha, if_neg ha']
  loop := fun h1 h2 => h.loop (hl h1 h2).1 (hl h1 h2).2
  pending := hp
  entry := fun e h' => absurd h' (he e)

variable (around) in
/-- A step of the program keeps the invariant, and there is always one. -/
lemma Inv.next (h : Inv s) : ∃ s', s.next around = some s' ∧ Inv s' := by
  obtain ⟨hring, hplace, hbound, hsound⟩ := h
  unfold State.next
  cases hpc : s.pc with
  | wait =>
    refine ⟨_, rfl, hring, ?_, hbound, hsound⟩
    rw [hpc] at hplace
    show Place (if _ then _ else _) _ _
    split
    · exact hplace
    · exact hplace.move (by simp) (by simp) (by simp) (by simp) (by simp)
  | init =>
    refine ⟨_, rfl, hring, ?_, hbound, hsound⟩
    rw [hpc] at hplace
    exact ⟨hplace.handled, fun _ _ => hring.read, by simp [State.begins], by simp [State.begins]⟩
  | test =>
    rw [hpc] at hplace
    simp only
    split
    · refine ⟨_, rfl, hring, hplace.move (by simp) (by simp) (by simp) (fun _ _ _ => ?_) (by simp),
        hbound, hsound⟩
      -- an index below `scancode_write` is not at the end of the log
      refine Nat.lt_of_le_of_ne hring.taken fun he => ?_
      have hi := hplace.loop (by simp) (by simp)
      rw [← hring.read, (hring.caught_up hbound).mpr he] at hi
      omega
    · exact ⟨_, rfl, hring, hplace.move (by simp) (by simp) (by simp) (by simp) (by simp), hbound,
        hsound⟩
  | fetch =>
    rw [hpc] at hplace
    have hi := hplace.loop (by simp) (by simp)
    have hlt := hplace.pending (by simp) (by simp) (by simp)
    refine ⟨_, rfl, ⟨hring.holds, hring.write, hring.read, hring.taken⟩,
      ⟨hplace.handled, fun _ _ => hi, fun _ _ _ => hlt, fun e he => ?_⟩, hbound, hsound⟩
    cases he
    have hb : s.past.logged.length ≤ s.past.taken + 255 := hbound
    rw [hi]
    exact hring.holds.read hlt (show s.past.logged.length ≤ s.past.taken + 256 by omega)
  | put e =>
    rw [hpc] at hplace
    obtain ⟨k', hk, hs⟩ := kputc_some around hsound (charOf e)
    have hlt := hplace.pending (by simp) (by simp) (by simp)
    refine ⟨s.handles e k', by simp only [hk, Option.map_some],
      ⟨hring.holds, hring.write, hring.read, hring.taken⟩,
      ⟨?_, fun _ _ => hplace.loop (by simp) (by simp), fun _ _ _ => hlt,
        by simp [State.handles]⟩, hbound, hs⟩
    have he := hplace.entry e rfl
    show s.past.handled ++ [e] = s.past.logged.take (s.past.taken + 1)
    rw [List.take_add_one, he, hplace.handled]
    rfl
  | advance =>
    rw [hpc] at hplace
    have hlt := hplace.pending (by simp) (by simp) (by simp)
    refine ⟨_, rfl, hring.takes hlt rfl rfl, ⟨hplace.handled, fun _ _ => ?_,
      by simp [State.advances], by simp [State.advances]⟩, ?_, hsound⟩
    · show (s.i + 1) % 2 ^ 8 = (s.past.taken + 1) % 256
      rw [hplace.loop (by simp) (by simp)]
      omega
    · have hb : s.past.logged.length ≤ s.past.taken + 255 := hbound
      show s.past.logged.length ≤ s.past.taken + 1 + 255
      omega

/-- The log grows behind everything that has been read of it. -/
lemma Place.log (h : Place pc i p) (ht : p.taken ≤ p.logged.length) (e : UInt16) :
    Place pc i { p with logged := p.logged ++ [e] } where
  handled := by
    show p.handled = (p.logged ++ [e]).take (if pc = .advance then p.taken + 1 else p.taken)
    rw [h.handled, List.take_append_of_le_length]
    split
    · next hpc => exact h.pending (by simp [hpc]) (by simp [hpc]) (by simp [hpc])
    · exact ht
  loop := h.loop
  pending := fun h1 h2 h3 => by
    rw [List.length_append]
    exact Nat.lt_add_right _ (h.pending h1 h2 h3)
  entry := fun e' he => by
    have hp := h.pending (by simp [he]) (by simp [he]) (by simp [he])
    exact (List.getElem?_append_left hp).trans (h.entry e' he)

lemma Inv.interrupt (h : Inv s) {scancode : UInt8} (hb : (s.interrupt scancode).Bounded) :
    Inv (s.interrupt scancode) where
  ring := h.ring.interrupt scancode
  place := by
    simp only [State.interrupt]
    split
    · exact h.place.log h.ring.taken _
    · exact h.place
  bound := hb
  sound := h.sound

lemma Inv.act {a : Act} (h : Inv s) (hs : act around s a = some s') (hb : s'.Bounded) : Inv s' := by
  cases a with
  | next =>
    obtain ⟨s₁, h₁, hi⟩ := h.next around
    obtain rfl := Option.some.inj (h₁.symm.trans hs)
    exact hi
  | interrupt scancode =>
    cases hs
    exact h.interrupt hb

/-! ### The passes -/

/-- What has become of the entries that were pending when the pass began: when the pass is over
they have all been read and echoed, and until then it has not gone on for long. -/
structure Drained (s : State) : Prop where
  passed : s.pc = .wait → s.goal ≤ s.past.taken
  soon : s.past.taken < s.goal → s.steps < 1020
  handled : s.pc = .wait → s.past.handled = s.past.logged.take s.past.taken
  ordered : s.past.handled <+: s.past.logged

/-- While entries of the pass are pending, the writer is not around the end of the ring when
the loop looks. -/
def Ahead (s : State) (a : Act) : Prop :=
  a = .next → s.pc = .test → s.past.taken < s.goal → s.keys.read < s.keys.write

/-- The steps of a round that have been taken. -/
def Pc.round : Pc → ℕ
  | .wait => 0
  | .init => 0
  | .test => 0
  | .fetch => 1
  | .put _ => 2
  | .advance => 3

/-- Each round of the loop takes four steps and brings the pass nearer to its goal. -/
structure Passes (s : State) : Prop where
  idle : s.pc = .wait ∨ s.pc = .init → s.goal ≤ s.past.taken
  pass : s.pc ≠ .wait → s.pc ≠ .init → s.past.taken ≤ s.goal →
    s.steps + 4 * (s.goal - s.past.taken) ≤ 1020 + s.pc.round

lemma Passes.next (h : Passes s) (hi : Inv s) (ha : Ahead s .next)
    (hs : s.next around = some s') : Passes s' := by
  obtain ⟨hidle, hpass⟩ := h
  unfold State.next at hs
  cases hpc : s.pc with
  | wait =>
    simp only [hpc] at hs
    cases hs
    have hgoal := hidle (Or.inl hpc)
    refine ⟨fun _ => hgoal, fun h1 h2 => ?_⟩
    simp only at h1 h2
    split at h1 <;> simp_all
  | init =>
    simp only [hpc] at hs
    cases hs
    have hb : s.past.logged.length ≤ s.past.taken + 255 := hi.bound
    refine ⟨fun h => by simp [State.begins] at h, fun _ _ _ => ?_⟩
    show 0 + 4 * (s.past.logged.length - s.past.taken) ≤ 1020 + 0
    omega
  | test =>
    have hplace := hi.place.loop (by simp [hpc]) (by simp [hpc])
    have hpass := hpass (by simp [hpc]) (by simp [hpc])
    rw [hpc] at hpass
    simp only [hpc] at hs
    split at hs
    · cases hs
      refine ⟨fun h => by simp at h, fun _ _ hle => ?_⟩
      have := hpass hle
      show s.steps + 1 + 4 * (s.goal - s.past.taken) ≤ 1020 + 1
      simp only [Pc.round] at this
      omega
    · next hlt =>
      cases hs
      refine ⟨fun _ => Nat.le_of_not_lt fun hgoal => hlt ?_, fun h => absurd rfl h⟩
      rw [hplace, ← hi.ring.read]
      exact ha rfl hpc hgoal
  | fetch =>
    have hpass := hpass (by simp [hpc]) (by simp [hpc])
    rw [hpc] at hpass
    simp only [hpc] at hs
    cases hs
    refine ⟨fun h => by simp [State.fetches] at h, fun _ _ hle => ?_⟩
    have := hpass hle
    show s.steps + 1 + 4 * (s.goal - s.past.taken) ≤ 1020 + 2
    simp only [Pc.round] at this
    omega
  | put e =>
    have hpass := hpass (by simp [hpc]) (by simp [hpc])
    rw [hpc] at hpass
    simp only [hpc] at hs
    obtain ⟨k', -, rfl⟩ := Option.map_eq_some_iff.mp hs
    refine ⟨fun h => by simp [State.handles] at h, fun _ _ hle => ?_⟩
    have := hpass hle
    show s.steps + 1 + 4 * (s.goal - s.past.taken) ≤ 1020 + 3
    simp only [Pc.round] at this
    omega
  | advance =>
    have hpass := hpass (by simp [hpc]) (by simp [hpc])
    rw [hpc] at hpass
    simp only [hpc] at hs
    cases hs
    refine ⟨fun h => by simp [State.advances] at h, fun _ _ hle => ?_⟩
    have hle : s.past.taken + 1 ≤ s.goal := hle
    have := hpass (by omega)
    show s.steps + 1 + 4 * (s.goal - (s.past.taken + 1)) ≤ 1020 + 0
    simp only [Pc.round] at this
    omega

lemma Passes.act {a : Act} (h : Passes s) (hi : Inv s) (ha : Ahead s a)
    (hs : act around s a = some s') : Passes s' := by
  cases a with
  | next => exact h.next hi ha hs
  | interrupt scancode =>
    cases hs
    exact ⟨h.idle, h.pass⟩

lemma Passes.drained (h : Passes s) (hi : Inv s) : Drained s where
  passed := fun hpc => h.idle (Or.inl hpc)
  soon := fun hlt => by
    by_cases hw : s.pc = .wait ∨ s.pc = .init
    · have := h.idle hw
      omega
    · have := h.pass (fun h => hw (Or.inl h)) (fun h => hw (Or.inr h)) (Nat.le_of_lt hlt)
      have hr : s.pc.round ≤ 3 := by unfold Pc.round; split <;> omega
      omega
  handled := fun hpc => by rw [hi.place.handled, hpc, if_neg (by simp)]
  ordered := by rw [hi.place.handled]; exact List.take_prefix _ _

/-- A test that finds the writer around the end of the ring ends the pass too early. -/
lemma not_drained {a : Act} (hi : Inv s) (ha : ¬ Ahead s a) (hs : act around s a = some s') :
    ¬ Drained s' := by
  simp only [Ahead, Classical.not_imp, Nat.not_lt] at ha
  obtain ⟨rfl, hpc, hgoal, hge⟩ := ha
  have hplace := hi.place.loop (by simp [hpc]) (by simp [hpc])
  rw [← hi.ring.read] at hplace
  have hs : s.next around = some s' := hs
  simp only [State.next, hpc, if_neg (show ¬ s.i < s.keys.write by omega)] at hs
  cases hs
  intro hd
  have hle : s.goal ≤ s.past.taken := hd.passed rfl
  omega

variable (around) in
/-- **The passes of the sandbox.** In a run with no more than 255 entries pending at any time,
every pass reads and echoes the entries that were pending when it began, all of them, in order
and in its time, exactly when each test that is made while some of them are pending finds
`scancode_read` below `scancode_write`. In every such run the program can go on. -/
theorem sandbox_consumes (hr : Ring keys p) (hh : p.handled = p.logged.take p.taken)
    (hk : Sound k.machine)
    (hb : Along (act around) (start keys k p) acts State.Bounded) :
    (Along (act around) (start keys k p) acts Drained ↔
      Meets (act around) (start keys k p) acts Ahead) ∧
    ∀ s, run (act around) (start keys k p) acts = some s → ∃ s', s.next around = some s' := by
  have hi₀ : Inv (start keys k p) := ⟨hr, ⟨hh, by simp [start], by simp [start], by simp [start]⟩,
    hb [] _ (List.nil_prefix) rfl, hk⟩
  have hi : Along (act around) (start keys k p) acts Inv :=
    Along.of_meets (Q := fun _ _ => True) hi₀ (fun s a s' h _ hs hb => h.act hs hb) hb
      fun _ _ _ _ _ _ _ => trivial
  refine ⟨⟨fun h => ?_, fun h => ?_⟩, fun s hs => ?_⟩
  · have hboth : Along (act around) (start keys k p) acts fun s => Inv s ∧ Drained s :=
      fun pre s hp hs => ⟨hi pre s hp hs, h pre s hp hs⟩
    exact Meets.of_along (fun s a s' hs ha hact hs' => not_drained hs.1 ha hact hs'.2) hboth
  · have hpasses : Along (act around) (start keys k p) acts fun s => Inv s ∧ Passes s :=
      Along.of_meets ⟨hi₀, fun _ => Nat.le_refl _, fun h => absurd rfl h⟩
        (fun s a s' hs ha hact hb => ⟨hs.1.act hact hb, hs.2.act hs.1 ha hact⟩) hb h
    exact fun pre s hp hs => (hpasses pre s hp hs).2.drained (hpasses pre s hp hs).1
  · obtain ⟨s', hs', -⟩ := (hi acts s (List.prefix_refl _) hs).next around
    exact ⟨s', hs'⟩

/-- A kernel with a terminal of two rows. -/
def smallKernel : Kernel :=
  ⟨initTerminal 2 2 (fun _ => 0) 7 (.boot fun _ => 0), 0, fun _ => 0, 0, fun _ _ => 0⟩

lemma sound_smallKernel : Sound smallKernel.machine :=
  (initTerminal_sound (show 2 ≤ 2 ∧ 2 < 65536 by omega) (show 1 ≤ 2 ∧ 2 < 65536 by omega)
    (fun _ => 0) 7 (areaOk_boot fun _ => 0)).1

/-- The keys when `n` entries of an `A` have been logged, `r` of which have been read. -/
def typedKeys (n r : ℕ) : Keys := ⟨fun _ => 30, 0, r % 256, n % 256, 0, 0⟩

def typedPast (n r : ℕ) : History := ⟨List.replicate n 30, r, List.replicate r 30, []⟩

lemma ring_typed {n r : ℕ} (h : r ≤ n) : Ring (typedKeys n r) (typedPast n r) where
  holds := fun j _ hj => by simp [typedKeys, typedPast]
  write := by simp [typedKeys, typedPast]
  read := rfl
  taken := by simpa [typedPast] using h

lemma handled_typed {n r : ℕ} (h : r ≤ n) :
    (typedPast n r).handled = (typedPast n r).logged.take (typedPast n r).taken := by
  simp [typedPast, h]

/-- The program alone keeps the bound. -/
lemma bounded_alone (hi : Inv s) (m : ℕ) :
    Along (act around) s (List.replicate m .next) State.Bounded := by
  have hnext : Meets (act around) s (List.replicate m .next) fun _ a => a = .next :=
    fun pre a _ _ hp _ _ => List.eq_of_mem_replicate (hp.subset (by simp))
  have hall : Along (act around) s (List.replicate m .next) fun _ => True :=
    fun _ _ _ _ => trivial
  have hinv : Along (act around) s (List.replicate m .next) Inv := by
    refine Along.of_meets hi (fun s a s' h ha hs _ => ?_) hall hnext
    obtain ⟨s₁, h₁, hi'⟩ := h.next around
    subst ha
    obtain rfl := Option.some.inj (h₁.symm.trans hs)
    exact hi'
  exact fun pre s hp hs => (hinv pre s hp hs).bound

lemma inv_typed {n r : ℕ} (hr : r ≤ n) (hn : n ≤ r + 255) :
    Inv (start (typedKeys n r) smallKernel (typedPast n r)) where
  ring := ring_typed hr
  place := ⟨handled_typed hr, by simp [start], by simp [start], by simp [start]⟩
  bound := by simpa [State.Bounded, start, typedPast] using hn
  sound := sound_smallKernel

/-- One entry is pending at the start of the ring. -/
theorem sandbox_consumes_one :
    Along (act fun _ => 0) (start (typedKeys 1 0) smallKernel (typedPast 1 0))
      (List.replicate 3 .next) Drained := by
  have hi := inv_typed (show 0 ≤ 1 by omega) (by omega)
  refine (sandbox_consumes (fun _ => 0) hi.ring (handled_typed (Nat.zero_le 1)) sound_smallKernel
    (bounded_alone hi 3)).1.mpr ?_
  rw [show List.replicate 3 Act.next = (([] ++ [.next]) ++ [.next]) ++ [.next] from rfl,
    meets_snoc, meets_snoc, meets_snoc]
  refine ⟨⟨⟨meets_nil, ?_⟩, ?_⟩, ?_⟩
  · rintro s - hs - - hpc
    cases hs
    cases hpc
  · rintro s - hs - - hpc
    cases hs
    cases hpc
  · rintro s - hs - - - -
    cases hs
    decide

/-- Nine entries are pending around the end of the ring: the pass is over at once, and none of
them has been read. -/
theorem sandbox_stuck : Ring (typedKeys 259 250) (typedPast 259 250) ∧
    Along (act fun _ => 0) (start (typedKeys 259 250) smallKernel (typedPast 259 250))
      (List.replicate 3 .next) State.Bounded ∧
    ¬ Along (act fun _ => 0) (start (typedKeys 259 250) smallKernel (typedPast 259 250))
      (List.replicate 3 .next) Drained := by
  have hi := inv_typed (show 250 ≤ 259 by omega) (by omega)
  refine ⟨hi.ring, bounded_alone hi 3, fun h => ?_⟩
  have hd := h (List.replicate 3 .next) _ (List.prefix_refl _) rfl
  have hle : (List.replicate 259 (30 : UInt16)).length ≤ 250 := hd.passed rfl
  rw [List.length_replicate] at hle
  omega

end Mono98.Sandbox
