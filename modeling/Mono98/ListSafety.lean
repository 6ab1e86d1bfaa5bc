import Mono98.TtyRun

/-!
Memory safety of the row list.

`terminal_scroll` re-links the head of a raw list behind its tail, and `cursor_y` can be one
or two rows past the last one in the middle of a byte. Still every list that `tputs` and
`terminal_scroll` start from and leave behind runs through the whole pool, and the row and
the column of every store are there.
-/

namespace Mono98.ListSafety

open Mono98.Graphics Mono98.Tty Mono98.TextGrid Mono98.TtyRows Mono98.TtyRun Mono98.Lib.Links
open Mono98.Lib.Fold

/-- Following `next` from `screen` meets each of the nodes `0 .. rows - 1` once and then the
null pointer, and each node owns the row buffer it was allocated with. -/
structure Intact (rows : ℕ) (t : Terminal) : Prop where
  rows : t.rows = rows
  listed : ∃ xs, Listed t xs

/-- The machine with which a byte enters `terminal_scroll`. -/
def scrollCall (m : Machine) (c : UInt8) : Option Machine :=
  if IsColour c ∨ c = 8 then none
  else
    let t := if c = 10 then m.term.wrap.newline else m.term.wrap
    if t.rows ≤ t.cursorY then some ⟨t, m.video⟩ else none

/-- The terminal in which a byte walks to row `cursor_y` and stores at column `cursor_x`. -/
def storeCall (m : Machine) (c : UInt8) : Option Terminal :=
  if IsColour c ∨ c = 10 then none
  else if c = 8 then
    let t := m.term.wrap
    if t.cursorX = 0 ∧ t.cursorY = 0 then none else some t.stepBack
  else (scrollIfBelow ⟨m.term.wrap, m.video⟩).map Machine.term

variable (around : ℤ → ℕ)

/-- One round of the loop of `tputs` makes only valid accesses. -/
structure ByteSafe (rows : ℕ) (m : Machine) (c : UInt8) : Prop where
  entered : Intact rows m.term
  scrolls : ∀ s, scrollCall m c = some s →
    Intact rows s.term ∧ ∃ s', terminalScroll s = some s' ∧ Intact rows s'.term
  stores : ∀ t, storeCall m c = some t →
    Intact rows t ∧ (∃ p, t.nodeAt t.cursorY = some p ∧ p < rows) ∧ t.cursorX < t.columns
  left : ∃ m', tputsByte around m c = some m' ∧ Intact rows m'.term

variable {m : Machine} {t : Terminal} {xs : List ℕ} {rows columns : ℕ}

lemma Intact.of_listed (h : Listed t xs) (hr : t.rows = rows) : Intact rows t := ⟨hr, xs, h⟩

/-- A row of the screen is a node of the pool. -/
lemma nodeAt_some (h : Listed t xs) {n : ℕ} (hn : n < t.rows) :
    ∃ p, t.nodeAt n = some p ∧ p < t.rows := by
  have hlt : n < xs.length := by rw [h.length]; exact hn
  exact ⟨xs[n], by rw [h.nodeAt, List.getElem?_eq_getElem hlt], h.lt (List.getElem_mem _)⟩

lemma terminalScroll_intact (h : Intact rows t) (h2 : 2 ≤ rows) (v : Video) :
    ∃ s, terminalScroll ⟨t, v⟩ = some s ∧ Intact rows s.term ∧ view s.term = (view t).scroll := by
  obtain ⟨hr, xs, hl⟩ := h
  obtain ⟨t', xs', hrot, hl', hview, -⟩ := hl.rotate (by omega)
  have hr' : t'.rows = t.rows := congrArg Screen.rows hview
  exact ⟨⟨t', drawBackground t'.background v⟩, by simp [terminalScroll, hrot],
    .of_listed hl' (hr'.trans hr), hview⟩

lemma scrollCall_safe (h : Sound m) {c : UInt8} {s : Machine} (hs : scrollCall m c = some s) :
    Intact m.term.rows s.term ∧
      ∃ s', terminalScroll s = some s' ∧ Intact m.term.rows s'.term := by
  obtain ⟨xs, hl⟩ := h.listed
  have hw : Intact m.term.rows m.term.wrap := .of_listed hl.wrap (wrap_rows _)
  have hi : Intact m.term.rows (if c = 10 then m.term.wrap.newline else m.term.wrap) := by
    split
    · exact .of_listed (hl.wrap.congr rfl rfl rfl) (wrap_rows _)
    · exact hw
  simp only [scrollCall] at hs
  generalize (if c = 10 then m.term.wrap.newline else m.term.wrap) = t at hs hi
  split at hs
  · cases hs
  · split at hs
    · cases hs
      obtain ⟨s', hs', hi', -⟩ := terminalScroll_intact hi h.ok.rows.1 m.video
      exact ⟨hi, s', hs', hi'⟩
    · cases hs

lemma storeCall_safe (h : Sound m) {c : UInt8} (ht : storeCall m c = some t) :
    Intact m.term.rows t ∧ (∃ p, t.nodeAt t.cursorY = some p ∧ p < m.term.rows) ∧
      t.cursorX < t.columns := by
  obtain ⟨xs, hl⟩ := h.listed
  -- it is enough that the cursor is on the screen
  have key : ∀ xs, Listed t xs → t.rows = m.term.rows → t.columns = m.term.columns →
      (view t).x < m.term.columns ∧ (view t).y < m.term.rows →
      Intact m.term.rows t ∧ (∃ p, t.nodeAt t.cursorY = some p ∧ p < m.term.rows) ∧
        t.cursorX < t.columns := by
    intro xs hl hr hc hxy
    obtain ⟨p, hp, hlt⟩ := nodeAt_some hl (show t.cursorY < t.rows by rw [hr]; exact hxy.2)
    exact ⟨.of_listed hl hr, ⟨p, hp, hr ▸ hlt⟩, by rw [hc]; exact hxy.1⟩
  simp only [storeCall] at ht
  split at ht
  · cases ht
  · split at ht
    · split at ht
      · cases ht
      · next h0 =>
        cases ht
        refine key xs hl.wrap.stepBack ((stepBack_rows _).trans (wrap_rows _))
          ((stepBack_columns _).trans (wrap_columns _)) ?_
        rw [view_stepBack, view_wrap]
        refine h.ok.stepBack fun h0' => h0 ?_
        rwa [← view_wrap] at h0'
    · rw [Option.map_eq_some_iff] at ht
      obtain ⟨s, hs, rfl⟩ := ht
      obtain ⟨t', xs', hl', hview, -, heq⟩ :=
        follow_eq hl.wrap (by rw [wrap_rows]; exact h.ok.rows.1) m.video
      rw [heq, Option.map_eq_some_iff] at hs
      obtain ⟨v, -, rfl⟩ := hs
      obtain ⟨hr, hc, -⟩ := follow_frame hview
      refine key xs' hl' hr hc ?_
      simp only [hview, view_wrap]
      exact h.ok.follow

variable {around}

/-- A byte makes only valid accesses. -/
lemma byteSafe (h : Sound m) (c : UInt8) : ByteSafe around m.term.rows m c := by
  obtain ⟨m', hm, h'⟩ := tputsByte_some around h c
  exact ⟨⟨rfl, h.listed⟩, fun s hs => scrollCall_safe h hs, fun t ht => storeCall_safe h ht,
    m', hm, (tputsByte_steps h.toShaped hm).1.rows.trans (put_rows c), h'.listed⟩

variable (around)

/-- **Memory safety of the row list.** In every run on a fresh terminal the calls come back
and leave the list intact, and each byte of each string finds it intact and makes only valid
accesses. -/
theorem list_safe (hr : 2 ≤ rows ∧ rows ≤ 65534) (hc : 1 ≤ columns ∧ columns ≤ 65535)
    (background : ℕ → UInt8) (colour : ℕ) {v : Video} (hv : v.AreaOk) {ops : List Op}
    (ht : ∀ op ∈ ops, op.Text) :
    (∀ pre post, ops = pre ++ post → ∃ m,
      runOps around (initTerminal rows columns background colour v) pre = some m ∧
        Intact rows m.term) ∧
    ∀ pre msg post u c w, ops = pre ++ .puts msg :: post → msg = u ++ c :: w → ∃ m₁ m,
      runOps around (initTerminal rows columns background colour v) pre = some m₁ ∧
        u.foldlM (tputsByte around) m₁ = some m ∧ ByteSafe around rows m c := by
  obtain ⟨hs, -⟩ := initTerminal_sound (show 2 ≤ rows ∧ rows < 65536 by omega)
    (show 1 ≤ columns ∧ columns < 65536 by omega) background colour hv
  have run : ∀ pre, (∀ op ∈ pre, op.Text) → ∃ m,
      runOps around (initTerminal rows columns background colour v) pre = some m ∧ Sound m ∧
        m.term.rows = rows := by
    intro pre hpre
    obtain ⟨m, hm, hsm⟩ := runOps_some around hs hpre
    exact ⟨m, hm, hsm, (runOps_size hs.toShaped hpre hm).1⟩
  constructor
  · rintro pre post rfl
    obtain ⟨m, hm, hsm, hrm⟩ := run pre fun op hop => ht op (by simp [hop])
    exact ⟨m, hm, hrm, hsm.listed⟩
  · rintro pre msg post u c w rfl rfl
    obtain ⟨m₁, h₁, hs₁, hr₁⟩ := run pre fun op hop => ht op (by simp [hop])
    obtain ⟨m, hm, hsm⟩ := bytes_some around hs₁ u
    have hrm : m.term.rows = rows :=
      calc m.term.rows = (puts (fontAt around) (view m₁.term) u).rows :=
            (bytes_steps hs₁.toShaped hm).1.rows
        _ = m₁.term.rows := puts_rows u
        _ = rows := hr₁
    exact ⟨m₁, m, h₁, hm, hrm ▸ byteSafe hsm c⟩

/-- A scroll between two stores, on a screen of two rows and one column. -/
theorem list_safe_column :
    ∃ m₁ m, runOps (fun _ => 0) (initTerminal 2 1 (fun _ => 0) 7 (.boot fun _ => 0)) [.clear] =
        some m₁ ∧ [65, 66].foldlM (tputsByte fun _ => 0) m₁ = some m ∧
      ByteSafe (fun _ => 0) 2 m 10 :=
  (list_safe (fun _ => 0) (show 2 ≤ 2 ∧ 2 ≤ 65534 by omega) (show 1 ≤ 1 ∧ 1 ≤ 65535 by omega)
    (fun _ => 0) 7 (areaOk_boot fun _ => 0)
    (show ∀ op ∈ [Op.clear, .puts [65, 66, 10, 67]], op.Text by simp [Op.Text, IsText])).2
    [.clear] [65, 66, 10, 67] [] [65, 66] 10 [67] rfl rfl

end Mono98.ListSafety
