import Mathlib.Data.List.Induction
import Mono98.TtyRun

/-!
When the cursor is on the screen between two calls.

A newline on a pending wrap advances the row twice and scrolls once. At the end of the last
row this leaves the cursor in the row below the screen, and it stays there until the next
byte that is neither a newline nor a colour code. On a screen of 65535 rows the second advance
overflows to the top row instead.
-/

namespace Mono98.CursorBound

open Mono98.Graphics Mono98.Tty Mono98.TextGrid Mono98.TtyRows Mono98.TtyRun Mono98.Lib.Word

/-! ### On the text screen -/

/-- The next newline advances past the last row twice. -/
def AtEnd (s : Screen) : Prop := s.x = s.columns ∧ s.y + 1 = s.rows ∧ s.rows ≠ 65535

/-- A byte that leaves a cursor below the screen where it is. -/
def Keeps (c : UInt8) : Prop := c = 10 ∨ IsColour c

variable {glyph : UInt8 → ℕ} {s : Screen}

lemma newline_off (ok : Ok s) : s.rows ≤ (put glyph s 10).y ↔
    s.rows ≤ s.y ∧ s.rows ≠ 65535 ∨ AtEnd s := by
  obtain ⟨hr, hc, hx, hy⟩ := ok
  have h10 : ¬ IsColour 10 := by decide
  simp only [put, if_neg h10, if_true, AtEnd]
  by_cases hw : s.columns ≤ s.x
  · have hrow : s.y < s.rows := by omega
    have hi : inc 16 s.y = s.y + 1 := inc_of_lt (by omega)
    simp only [Screen.wrap, if_pos hw, Screen.newline, hi, Screen.follow, Screen.scroll]
    by_cases hlast : s.y + 1 + 1 < 2 ^ 16
    · rw [inc_of_lt hlast]
      split_ifs with hf
      · rw [dec_of_pos (by omega)]
        simp only [Nat.add_sub_cancel]
        omega
      · simp only at hf ⊢
        omega
    · have h0 : inc 16 (s.y + 1) = 0 := inc_max (by omega)
      rw [h0, if_neg (by omega)]
      simp only
      omega
  · simp only [Screen.wrap, if_neg hw, Screen.newline, Screen.follow, Screen.scroll]
    by_cases hlast : s.y + 1 < 2 ^ 16
    · rw [inc_of_lt hlast]
      split_ifs with hf
      · rw [dec_of_pos (by omega)]
        simp only [Nat.add_sub_cancel]
        omega
      · simp only at hf ⊢
        omega
    · have h0 : inc 16 s.y = 0 := inc_max (by omega)
      rw [h0, if_neg (by omega)]
      simp only
      omega

/-- The bytes after which the cursor is below the screen. -/
lemma put_off (ok : Ok s) (c : UInt8) : s.rows ≤ (put glyph s c).y ↔
    Keeps c ∧ s.rows ≤ s.y ∧ (c = 10 → s.rows ≠ 65535) ∨ c = 10 ∧ AtEnd s := by
  by_cases hcol : IsColour c
  · have h10 : c ≠ 10 := by rintro rfl; exact absurd hcol (by decide)
    simp [put, hcol, h10, Keeps, Screen.setColour]
  by_cases hnl : c = 10
  · subst hnl
    rw [newline_off ok]
    simp [Keeps]
  have hk : ¬ Keeps c := fun h => h.elim hnl hcol
  simp only [hk, hnl, false_and, or_false, iff_false, Nat.not_le]
  by_cases hbs : c = 8
  · simp only [put, hcol, hnl, if_false, if_pos hbs]
    split_ifs with h0
    · have := ok.rows
      omega
    · exact (ok.stepBack h0).2
  · simp only [put, hcol, hnl, hbs, if_false]
    exact ok.follow.2

/-- The string has a newline on a pending wrap at the end of the last row, and nothing behind
it that takes the cursor back to the screen. -/
def Overruns (glyph : UInt8 → ℕ) (s : Screen) (msg : List UInt8) : Prop :=
  ∃ u w, msg = u ++ 10 :: w ∧ AtEnd (puts glyph s u) ∧ ∀ c ∈ w, Keeps c

lemma overruns_snoc {msg : List UInt8} {c : UInt8} : Overruns glyph s (msg ++ [c]) ↔
    Keeps c ∧ Overruns glyph s msg ∨ c = 10 ∧ AtEnd (puts glyph s msg) := by
  constructor
  · rintro ⟨u, w, heq, hend, hw⟩
    rcases List.eq_nil_or_concat w with rfl | ⟨w, d, rfl⟩
    · obtain ⟨rfl, hc⟩ := List.append_inj' heq rfl
      exact Or.inr ⟨by simpa using hc, hend⟩
    · rw [List.concat_eq_append, ← List.cons_append, ← List.append_assoc] at heq
      obtain ⟨rfl, hc⟩ := List.append_inj' heq rfl
      obtain rfl : c = d := by simpa using hc
      exact Or.inl ⟨hw c (by simp), u, w, rfl, hend, fun c hc => hw c (by simp [hc])⟩
  · rintro (⟨hk, u, w, rfl, hend, hw⟩ | ⟨rfl, hend⟩)
    · refine ⟨u, w ++ [c], by simp, hend, fun d hd => ?_⟩
      rcases List.mem_append.mp hd with hd | hd
      · exact hw d hd
      · rwa [List.mem_singleton.mp hd]
    · exact ⟨msg, [], rfl, hend, by simp⟩

/-- A string from a cursor on the screen leaves it there unless it overruns the last row. -/
theorem puts_off (ok : Ok s) (hy : s.y < s.rows) (msg : List UInt8) :
    s.rows ≤ (puts glyph s msg).y ↔ Overruns glyph s msg := by
  induction msg using List.reverseRecOn with
  | nil =>
    refine ⟨fun h => absurd h (by simpa using hy), ?_⟩
    rintro ⟨u, w, heq, -⟩
    simp at heq
  | append_singleton msg c ih =>
    have step : (puts glyph s msg).rows ≤ (put glyph (puts glyph s msg) c).y ↔ _ :=
      put_off (ok_puts ok msg) c
    rw [puts_rows, ih] at step
    -- a screen of 65535 rows is never overrun
    have hne : Overruns glyph s msg → s.rows ≠ 65535 := by
      rintro ⟨u, -, -, hend, -⟩
      rw [AtEnd, puts_rows] at hend
      exact hend.2.2
    rw [puts_append, overruns_snoc]
    simp only [puts_cons, puts_nil]
    rw [step]
    exact or_congr_left ⟨fun h => ⟨h.1, h.2.1⟩, fun h => ⟨h.1, h.2, fun _ => hne h.2⟩⟩

/-! ### On the terminal -/

variable (around : ℤ → ℕ)

/-- The call handles a newline with `cursor_x = columns` and `cursor_y = rows - 1`, on fewer
than 65535 rows, and only newlines and colour codes come after it. -/
def Lags (m : Machine) (msg : List UInt8) : Prop :=
  ∃ u w m₁, msg = u ++ 10 :: w ∧ u.foldlM (tputsByte around) m = some m₁ ∧
    m₁.term.cursorX = m₁.term.columns ∧ m₁.term.cursorY + 1 = m₁.term.rows ∧
    m₁.term.rows ≠ 65535 ∧ ∀ c ∈ w, Keeps c

variable {around} {m m' : Machine} {rows columns : ℕ}

lemma lags_iff (h : Sound m) {msg : List UInt8} :
    Lags around m msg ↔ Overruns (fontAt around) (view m.term) msg := by
  have key : ∀ {u m₁}, u.foldlM (tputsByte around) m = some m₁ →
      (AtEnd (puts (fontAt around) (view m.term) u) ↔ m₁.term.cursorX = m₁.term.columns ∧
        m₁.term.cursorY + 1 = m₁.term.rows ∧ m₁.term.rows ≠ 65535) := by
    intro u m₁ h₁
    rw [← (bytes_steps h.toShaped h₁).1.view]
    rfl
  constructor
  · rintro ⟨u, w, m₁, rfl, h₁, hx, hy, hr, hw⟩
    exact ⟨u, w, rfl, (key h₁).mpr ⟨hx, hy, hr⟩, hw⟩
  · rintro ⟨u, w, rfl, hend, hw⟩
    obtain ⟨m₁, h₁, -⟩ := bytes_some around h u
    obtain ⟨hx, hy, hr⟩ := (key h₁).mp hend
    exact ⟨u, w, m₁, rfl, h₁, hx, hy, hr, hw⟩

/-- One call: the cursor stays on the screen unless the call lags. -/
lemma tputs_bound (h : Sound m) (hy : m.term.cursorY < m.term.rows) {msg : List UInt8}
    (ht : IsText msg) (hm : tputs around m msg = some m') :
    m'.term.cursorY < m.term.rows ↔ ¬ Lags around m msg := by
  have hv := congrArg Screen.y (tputs_steps h.toShaped ht hm).1.view
  rw [lags_iff h, ← puts_off h.ok hy msg, ← hv]
  exact Nat.not_le.symm

/-- No call of a run lags. -/
def NoneLags (around : ℤ → ℕ) (m : Machine) (ops : List Op) : Prop :=
  ∀ pre msg post m₁, ops = pre ++ .puts msg :: post → runOps around m pre = some m₁ →
    ¬ Lags around m₁ msg

/-- The cursor is on the screen after every call of a run. -/
def Bounded (around : ℤ → ℕ) (rows columns : ℕ) (m : Machine) (ops : List Op) : Prop :=
  ∀ pre post, ops = pre ++ post → ∃ m₁, runOps around m pre = some m₁ ∧
    m₁.term.cursorY ≤ rows - 1 ∧ m₁.term.cursorX ≤ columns

lemma runOps_snoc (pre : List Op) (op : Op) (m : Machine) : runOps around m (pre ++ [op]) =
    (runOps around m pre).bind fun m => applyOp around m op := by
  simp [runOps, List.foldlM_append]

theorem bounded_iff (h : Sound m) (hy : m.term.cursorY < m.term.rows) {ops : List Op}
    (ht : ∀ op ∈ ops, op.Text) :
    Bounded around m.term.rows m.term.columns m ops ↔ NoneLags around m ops := by
  constructor
  · rintro hb pre msg post m₁ rfl h₁
    have hpre : ∀ op ∈ pre, op.Text := fun op hop => ht op (by simp [hop])
    obtain ⟨m₁', h₁', hy₁, -⟩ := hb pre _ rfl
    obtain rfl := Option.some.inj (h₁.symm.trans h₁')
    obtain ⟨m₂, h₂, hy₂, -⟩ := hb (pre ++ [.puts msg]) post (by simp)
    obtain ⟨m₁', h₁', hs₁⟩ := runOps_some around h hpre
    obtain rfl := Option.some.inj (h₁.symm.trans h₁')
    obtain ⟨hr₁, -⟩ := runOps_size h.toShaped hpre h₁
    rw [runOps_snoc, h₁, Option.bind_some] at h₂
    refine (tputs_bound hs₁ (by omega) (ht (.puts msg) (by simp)) h₂).mp ?_
    omega
  · intro hn pre
    induction pre using List.reverseRecOn with
    | nil =>
      intro post _
      have hx : m.term.cursorX ≤ m.term.columns := h.ok.x
      exact ⟨m, rfl, by omega, hx⟩
    | append_singleton pre op ih =>
      rintro post rfl
      have hpre : ∀ op ∈ pre, op.Text := fun op hop => ht op (by simp [hop])
      have hop : op.Text := ht op (by simp)
      obtain ⟨m₁, h₁, hy₁, -⟩ := ih (op :: post) (by simp)
      obtain ⟨m₁', h₁', hs₁⟩ := runOps_some around h hpre
      obtain rfl := Option.some.inj (h₁.symm.trans h₁')
      obtain ⟨hr₁, hc₁⟩ := runOps_size h.toShaped hpre h₁
      have hrows := h.ok.rows.1
      obtain ⟨m₂, h₂, hs₂⟩ := applyOp_some around hs₁ hop
      have hrun : runOps around m (pre ++ [op]) = some m₂ := by
        rw [runOps_snoc, h₁, Option.bind_some, h₂]
      obtain ⟨hr₂, hc₂⟩ :=
        runOps_size h.toShaped (fun op hop => ht op (by simp at hop ⊢; tauto)) hrun
      have hx₂ : m₂.term.cursorX ≤ m₂.term.columns := hs₂.ok.x
      refine ⟨m₂, hrun, ?_, by omega⟩
      cases op with
      | puts msg =>
        have hrows : (view m.term).rows = m.term.rows := rfl
        have := (tputs_bound hs₁ (by omega) hop h₂).mpr (hn pre msg post m₁ (by simp) h₁)
        omega
      | clear =>
        have hv := congrArg Screen.y (applyOp_steps hs₁.toShaped hop h₂).1.view
        have h0 : m₂.term.cursorY = 0 := hv
        omega

/-- **The cursor between two calls.** In a run on a fresh terminal the cursor is on the screen
after every call exactly when no call ends in the row below it. -/
theorem cursor_bound (around : ℤ → ℕ) (hr : 2 ≤ rows ∧ rows ≤ 65535)
    (hc : 1 ≤ columns ∧ columns ≤ 65535) (background : ℕ → UInt8) (colour : ℕ) {v : Video}
    (hv : v.AreaOk) {ops : List Op} (ht : ∀ op ∈ ops, op.Text) :
    Bounded around rows columns (initTerminal rows columns background colour v) ops ↔
      NoneLags around (initTerminal rows columns background colour v) ops := by
  obtain ⟨hs, -⟩ := initTerminal_sound (show 2 ≤ rows ∧ rows < 65536 by omega)
    (show 1 ≤ columns ∧ columns < 65536 by omega) background colour hv
  have hy : (initTerminal rows columns background colour v).term.cursorY <
      (initTerminal rows columns background colour v).term.rows :=
    show 0 < rows by omega
  exact bounded_iff hs hy ht

/-- A run of an `A`, a newline and a cleared screen. -/
theorem cursor_bound_column :
    Bounded (fun _ => 0) 2 1 (initTerminal 2 1 (fun _ => 0) 7 (.boot fun _ => 0))
      [.puts [65, 10], .clear] ↔
    NoneLags (fun _ => 0) (initTerminal 2 1 (fun _ => 0) 7 (.boot fun _ => 0))
      [.puts [65, 10], .clear] :=
  cursor_bound (fun _ => 0) (by omega) (by omega) (fun _ => 0) 7 (areaOk_boot fun _ => 0)
    (by simp [Op.Text, IsText])

/-- Two rows of one column: an `A`, an `A` at the end of the last row, and a newline. -/
theorem cursor_below_screen : ¬ Bounded (fun _ => 0) 2 1
    (initTerminal 2 1 (fun _ => 0) 7 (.boot fun _ => 0)) [.puts [65, 65, 10]] := by
  intro hb
  obtain ⟨m, hm, hy, -⟩ := hb [.puts [65, 65, 10]] [] rfl
  have hrun : (runOps (fun _ => 0) (initTerminal 2 1 (fun _ => 0) 7 (.boot fun _ => 0))
      [.puts [65, 65, 10]]).map (fun m => m.term.cursorY) = some 2 := by decide +kernel
  rw [hm, Option.map_some, Option.some.injEq] at hrun
  omega

end Mono98.CursorBound
