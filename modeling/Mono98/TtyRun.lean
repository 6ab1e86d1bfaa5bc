import Mono98.Lib.Fold
import Mono98.TtyRows

/-!
Runs of the terminal driver: strings written and screens cleared, in any order.

The drawing calls come back as long as the block cursor is off or the screen has at most 8188
rows and columns; then every call of a run comes back, and the terminal shows what the text
screen makes of the calls.
-/

namespace Mono98.TtyRun

open Mono98.Graphics Mono98.Tty Mono98.TextGrid Mono98.TtyRows Mono98.Lib.Links
open Mono98.Lib.Word Mono98.Lib.Fold

variable (around : ℤ → ℕ)

/-- A call made on a terminal. -/
inductive Op
  | puts (msg : List UInt8)
  | clear

def applyOp (m : Machine) : Op → Option Machine
  | .puts msg => tputs around m msg
  | .clear => clearTerminal m

def runOps (m : Machine) (ops : List Op) : Option Machine := ops.foldlM (applyOp around) m

/-- A string of bytes that ends within the range of the 16-bit index. -/
def IsText (msg : List UInt8) : Prop := msg.length ≤ 65535 ∧ ∀ c ∈ msg, c ≠ 0

def Op.Text : Op → Prop
  | .puts msg => IsText msg
  | .clear => True

/-- `clear_terminal` on the text screen. -/
def clear (s : Screen) : Screen := { s with x := 0, y := 0, cell := fun _ _ => 0 }

def applyText (glyph : UInt8 → ℕ) (s : Screen) : Op → Screen
  | .puts msg => puts glyph s msg
  | .clear => clear s

def runText (glyph : UInt8 → ℕ) (s : Screen) (ops : List Op) : Screen :=
  ops.foldl (applyText glyph) s

@[simp] lemma applyText_rows (glyph : UInt8 → ℕ) (s : Screen) (op : Op) :
    (applyText glyph s op).rows = s.rows := by cases op <;> simp [applyText, clear]

@[simp] lemma applyText_columns (glyph : UInt8 → ℕ) (s : Screen) (op : Op) :
    (applyText glyph s op).columns = s.columns := by cases op <;> simp [applyText, clear]

@[simp] lemma runText_rows (glyph : UInt8 → ℕ) (s : Screen) (ops : List Op) :
    (runText glyph s ops).rows = s.rows := by
  induction ops generalizing s with
  | nil => rfl
  | cons op ops ih => exact (ih _).trans (applyText_rows glyph s op)

@[simp] lemma runText_columns (glyph : UInt8 → ℕ) (s : Screen) (ops : List Op) :
    (runText glyph s ops).columns = s.columns := by
  induction ops generalizing s with
  | nil => rfl
  | cons op ops ih => exact (ih _).trans (applyText_columns glyph s op)

/-! ### Drawing comes back -/

/-- The block cursor is off, or every coordinate is far from the end of its range. -/
def CanDraw (t : Terminal) : Prop := t.showCursor = true → t.rows ≤ 8188 ∧ t.columns ≤ 8188

variable {t t' : Terminal} {xs : List ℕ} {m m' : Machine}

lemma restoreArea_some {v : Video} (h : v.AreaOk) :
    ∃ v', restoreArea v = some v' ∧ v'.AreaOk := by
  unfold restoreArea
  by_cases h0 : v.areaX = 65535 ∧ v.areaY = 65535
  · exact ⟨v, if_pos h0, h⟩
  · have hs := h.resolve_left h0
    rw [if_neg h0, if_pos hs.symm]
    exact ⟨_, rfl, Or.inr hs⟩

lemma restoreIn_some (row i : ℕ) {v : Video} (h : v.AreaOk) :
    ∃ v', restoreIn row i v = some v' ∧ v'.AreaOk := by
  unfold restoreIn
  split
  · exact restoreArea_some h
  · exact ⟨v, rfl, h⟩

lemma sweeps_coord {k : ℕ} (h : k < 8188) : Sweeps (coord k) := by
  unfold Sweeps coord; omega

lemma refreshCell_some (hd : CanDraw t) {row i : ℕ} (hr : row < t.rows) (hi : i < t.columns)
    (code : ℕ) {v : Video} (h : v.AreaOk) :
    ∃ v', refreshCell t row i code v = some v' ∧ v'.AreaOk := by
  obtain ⟨v₁, h₁, ok₁⟩ := restoreIn_some row i h
  unfold refreshCell
  rw [h₁, Option.bind_eq_bind, Option.bind_some]
  split
  · next hc =>
    obtain ⟨h1, h2⟩ := hd hc.2.2
    have sx := sweeps_coord (k := i) (by omega)
    have sy := sweeps_coord (k := row) (by omega)
    rw [saveArea, if_pos ⟨sy, sx⟩]
    exact ⟨_, rfl, Or.inr ⟨sx, sy⟩⟩
  · exact ⟨_, rfl, ok₁⟩

lemma refreshTerminal_some (h : Listed t xs) (hd : CanDraw t) (redraw : Bool) {v : Video}
    (hv : v.AreaOk) : ∃ v', refreshTerminal t redraw v = some v' ∧ v'.AreaOk := by
  unfold refreshTerminal
  rw [h.nodes, Option.bind_eq_bind, Option.bind_some]
  refine foldlM_some Video.AreaOk (fun p hp v hv => ?_) (by cases redraw <;> exact hv)
  have hrow : p.2 < t.rows := by
    rw [← h.length]
    exact (List.mem_zipIdx_iff_getElem?.mp hp |> fun h => (List.getElem?_eq_some_iff.mp h).1)
  exact foldlM_some Video.AreaOk
    (fun i hi v hv => refreshCell_some hd hrow (List.mem_range.mp hi) _ hv) hv

/-! ### Strings -/

/-- The invariant of the text: the row list is sound and the cursor is on its screen, or in
the row below it. -/
structure Shaped (t : Terminal) : Prop where
  listed : ∃ xs, Listed t xs
  ok : Ok (view t)

/-- The invariant of a run in which every drawing call comes back. -/
structure Sound (m : Machine) : Prop extends Shaped m.term where
  draws : CanDraw m.term
  area : m.video.AreaOk

lemma canDraw_of_steps {s : Screen} (h : CanDraw t) (hs : Steps t t' s)
    (hr : s.rows = t.rows) (hc : s.columns = t.columns) : CanDraw t' := by
  unfold CanDraw
  rw [hs.rows, hr, hs.columns, hc, hs.showCursor]
  exact h

variable {around}

/-- A byte that comes back has done to the text what it does to the text screen. -/
lemma tputsByte_steps (h : Shaped m.term) {c : UInt8} (hm : tputsByte around m c = some m') :
    Steps m.term m'.term (put (fontAt around) (view m.term) c) ∧ Shaped m'.term := by
  obtain ⟨⟨xs, hl⟩, ok⟩ := h
  obtain ⟨t', hs, heq⟩ := tputsByte_eq around hl ok c
  rw [heq, Option.map_eq_some_iff] at hm
  obtain ⟨v, -, rfl⟩ := hm
  exact ⟨hs, hs.listed, by rw [hs.view]; exact ok_put ok c⟩

lemma draw_some (h : Listed t xs) (hd : CanDraw t) (p : Paint) {v : Video} (hv : v.AreaOk) :
    ∃ v', draw p t v = some v' ∧ v'.AreaOk := by
  cases p with
  | nothing => exact ⟨v, rfl, hv⟩
  | background => exact ⟨_, rfl, hv⟩
  | everything => exact refreshTerminal_some h hd true hv

variable (around) in
/-- A byte comes back. -/
lemma tputsByte_some (h : Sound m) (c : UInt8) :
    ∃ m', tputsByte around m c = some m' ∧ Sound m' := by
  obtain ⟨xs, hl⟩ := h.listed
  obtain ⟨t', hs, heq⟩ := tputsByte_eq around hl h.ok c
  obtain ⟨xs', hl'⟩ := hs.listed
  have hd : CanDraw t' := canDraw_of_steps h.draws hs (put_rows c) (put_columns c)
  obtain ⟨v', hv, ha⟩ := draw_some hl' hd (paint (view m.term) c) h.area
  refine ⟨⟨t', v'⟩, by rw [heq, hv]; rfl, ⟨hs.listed, ?_⟩, hd, ha⟩
  rw [hs.view]
  exact ok_put h.ok c

variable (around)

/-- The loop of `tputs` handles the bytes before the terminator one after the other. -/
lemma tputsLoop_eq {msg : List UInt8} (h : IsText msg) (n i : ℕ) (hi : i ≤ msg.length)
    (hn : msg.length < n + i) (m : Machine) :
    tputsLoop around msg n i m = (msg.drop i).foldlM (tputsByte around) m := by
  induction n generalizing i m with
  | zero => omega
  | succ n ih =>
    rcases Nat.lt_or_ge i msg.length with hlt | hge
    · have hd : msg.drop i = msg[i] :: msg.drop (i + 1) := List.drop_eq_getElem_cons hlt
      have hc : msg.getD i 0 = msg[i] := List.getD_eq_getElem _ _ hlt
      have h0 : msg[i] ≠ 0 := h.2 _ (List.getElem_mem _)
      have hl := h.1
      rw [tputsLoop, hc, if_neg h0, hd, List.foldlM_cons, inc_of_lt (by omega)]
      congr 1
      funext m
      exact ih (i + 1) (by omega) (by omega) m
    · have hc : msg.getD i 0 = 0 := by simp [List.getD_eq_getElem?_getD, hge]
      rw [tputsLoop, hc, if_pos rfl, List.drop_of_length_le hge]
      rfl

theorem tputs_eq {msg : List UInt8} (h : IsText msg) (m : Machine) :
    tputs around m msg = (msg.foldlM (tputsByte around) m).bind fun m =>
      (refreshTerminal m.term false m.video).map (Machine.mk m.term) := by
  unfold tputs
  rw [tputsLoop_eq around h 65536 0 (Nat.zero_le _) (by have := h.1; omega)]
  simp only [List.drop_zero, Option.bind_eq_bind]
  congr 1
  funext m
  cases refreshTerminal m.term false m.video <;> rfl

variable {around}

lemma steps_trans {t'' : Terminal} {s s' : Screen} (h : Steps t t' s) (h' : Steps t' t'' s') :
    Steps t t'' s' := ⟨h'.listed, h'.view, h'.rest.trans h.rest⟩

lemma bytes_steps (h : Shaped m.term) {msg : List UInt8}
    (hm : msg.foldlM (tputsByte around) m = some m') :
    Steps m.term m'.term (puts (fontAt around) (view m.term) msg) ∧ Shaped m'.term := by
  induction msg generalizing m with
  | nil => cases hm; exact ⟨⟨h.listed, rfl, rfl⟩, h⟩
  | cons c msg ih =>
    simp only [List.foldlM_cons, Option.bind_eq_bind, Option.bind_eq_some_iff] at hm
    obtain ⟨m₁, h₁, hm⟩ := hm
    obtain ⟨hs, hsh⟩ := tputsByte_steps h h₁
    obtain ⟨hs', hsh'⟩ := ih hsh hm
    rw [hs.view] at hs'
    exact ⟨steps_trans hs hs', hsh'⟩

variable (around) in
lemma bytes_some (h : Sound m) (msg : List UInt8) :
    ∃ m', msg.foldlM (tputsByte around) m = some m' ∧ Sound m' :=
  foldlM_some Sound (fun c _ _ hm => tputsByte_some around hm c) h

/-- **A string**: if the call comes back, the terminal shows what the text screen makes of
the bytes. -/
theorem tputs_steps (h : Shaped m.term) {msg : List UInt8} (ht : IsText msg)
    (hm : tputs around m msg = some m') :
    Steps m.term m'.term (puts (fontAt around) (view m.term) msg) ∧ Shaped m'.term := by
  rw [tputs_eq around ht, Option.bind_eq_some_iff] at hm
  obtain ⟨m₁, h₁, hm⟩ := hm
  obtain ⟨hs, hsh⟩ := bytes_steps h h₁
  rw [Option.map_eq_some_iff] at hm
  obtain ⟨v, -, rfl⟩ := hm
  exact ⟨hs, hsh⟩

variable (around) in
theorem tputs_some (h : Sound m) {msg : List UInt8} (ht : IsText msg) :
    ∃ m', tputs around m msg = some m' ∧ Sound m' := by
  obtain ⟨m₁, h₁, hs⟩ := bytes_some around h msg
  obtain ⟨xs, hl⟩ := hs.listed
  obtain ⟨v, hv, ha⟩ := refreshTerminal_some hl hs.draws false hs.area
  exact ⟨⟨m₁.term, v⟩, by rw [tputs_eq around ht, h₁, Option.bind_some, hv]; rfl,
    hs.toShaped, hs.draws, ha⟩

/-! ### Clearing the screen -/

lemma clearedRows (h : Listed t xs) (l : List ℕ) (hl : ∀ p ∈ l, p < t.rows)
    (cells : ℕ → ℕ → ℕ) (q : ℕ) :
    (l.foldl (fun cells p =>
      let b := (t.node p).buffer
      Function.update cells b (t.blankRow (cells b))) cells) q =
        if q ∈ l then t.blankRow (cells q) else cells q := by
  induction l generalizing cells with
  | nil => rfl
  | cons p l ih =>
    have hp : (t.node p).buffer = p := h.own p (hl p (by simp))
    rw [List.foldl_cons, ih fun p hp => hl p (by simp [hp])]
    simp only [hp, Function.update_apply, List.mem_cons]
    by_cases hq : q = p
    · subst hq
      by_cases hm : q ∈ l
      · simp only [hm, if_true, or_true]
        funext c
        simp only [Terminal.blankRow]
        split <;> rfl
      · simp [hm]
    · simp [hq]

lemma blankRows_listed (h : Listed t xs) :
    Listed (t.blankRows xs) xs ∧ view (t.blankRows xs) = clear (view t) := by
  have h' : Listed (t.blankRows xs) xs := h.congr rfl rfl rfl
  refine ⟨h', ?_⟩
  show Screen.mk _ _ _ _ _ _ = Screen.mk _ _ _ _ _ _
  congr 1
  funext r c
  rw [h'.cellAt]
  show (if c < t.columns then _ else 0) = 0
  by_cases hc : c < t.columns
  · rw [if_pos hc]
    cases hp : xs[r]? with
    | none => rfl
    | some p =>
      have hmem : p ∈ xs := List.mem_of_getElem? hp
      have := clearedRows h xs (fun p hp => h.lt hp) t.cells p
      simp only [Option.map_some, Option.getD_some, Terminal.blankRows]
      rw [this, if_pos hmem, Terminal.blankRow, if_pos hc]
  · rw [if_neg hc]

lemma clearTerminal_eq (h : Listed m.term xs) :
    clearTerminal m = (refreshTerminal (m.term.blankRows xs) true m.video).map
      (Machine.mk (m.term.blankRows xs)) := by
  unfold clearTerminal
  rw [h.nodes, Option.bind_eq_bind, Option.bind_some]
  exact Option.map_eq_bind.symm

/-! ### Calls and runs -/

lemma ok_clear {s : Screen} (h : Ok s) : Ok (clear s) :=
  ⟨h.rows, h.columns, Nat.zero_le _, Or.inl (by have := h.rows; simp only [clear]; omega)⟩

/-- A call that comes back has done to the text what it does to the text screen. -/
lemma applyOp_steps (h : Shaped m.term) {op : Op} (ht : op.Text)
    (hm : applyOp around m op = some m') :
    Steps m.term m'.term (applyText (fontAt around) (view m.term) op) ∧ Shaped m'.term := by
  cases op with
  | puts msg => exact tputs_steps h ht hm
  | clear =>
    obtain ⟨xs, hl⟩ := h.listed
    obtain ⟨hl', hview⟩ := blankRows_listed hl
    rw [applyOp, clearTerminal_eq hl, Option.map_eq_some_iff] at hm
    obtain ⟨v, -, rfl⟩ := hm
    exact ⟨⟨⟨xs, hl'⟩, hview, rfl⟩, ⟨xs, hl'⟩, by rw [hview]; exact ok_clear h.ok⟩

variable (around) in
lemma applyOp_some (h : Sound m) {op : Op} (ht : op.Text) :
    ∃ m', applyOp around m op = some m' ∧ Sound m' := by
  cases op with
  | puts msg => exact tputs_some around h ht
  | clear =>
    obtain ⟨xs, hl⟩ := h.listed
    obtain ⟨hl', hview⟩ := blankRows_listed hl
    obtain ⟨v, hv, ha⟩ := refreshTerminal_some hl' h.draws true h.area
    have hok : Ok (view (m.term.blankRows xs)) := by rw [hview]; exact ok_clear h.ok
    exact ⟨⟨m.term.blankRows xs, v⟩, by rw [applyOp, clearTerminal_eq hl, hv]; rfl,
      ⟨⟨xs, hl'⟩, hok⟩, h.draws, ha⟩

/-- **A run**: as long as its calls come back, the terminal shows what the text screen makes
of them. -/
theorem runOps_steps (h : Shaped m.term) {ops : List Op} (ht : ∀ op ∈ ops, op.Text)
    (hm : runOps around m ops = some m') :
    Steps m.term m'.term (runText (fontAt around) (view m.term) ops) ∧ Shaped m'.term := by
  induction ops generalizing m with
  | nil => cases hm; exact ⟨⟨h.listed, rfl, rfl⟩, h⟩
  | cons op ops ih =>
    simp only [runOps, List.foldlM_cons, Option.bind_eq_bind, Option.bind_eq_some_iff] at hm
    obtain ⟨m₁, h₁, hm⟩ := hm
    obtain ⟨hs, hsh⟩ := applyOp_steps h (ht op (by simp)) h₁
    obtain ⟨hs', hsh'⟩ := ih hsh (fun op hop => ht op (by simp [hop])) hm
    rw [hs.view] at hs'
    exact ⟨steps_trans hs hs', hsh'⟩

/-- A run leaves the size of the screen alone. -/
lemma runOps_size (h : Shaped m.term) {ops : List Op} (ht : ∀ op ∈ ops, op.Text)
    (hm : runOps around m ops = some m') :
    m'.term.rows = m.term.rows ∧ m'.term.columns = m.term.columns := by
  have hs := (runOps_steps h ht hm).1
  exact ⟨hs.rows.trans (runText_rows _ _ ops), hs.columns.trans (runText_columns _ _ ops)⟩

variable (around) in
theorem runOps_some (h : Sound m) {ops : List Op} (ht : ∀ op ∈ ops, op.Text) :
    ∃ m', runOps around m ops = some m' ∧ Sound m' :=
  foldlM_some Sound (fun op hop _ hm => applyOp_some around hm (ht op hop)) h

/-! ### A fresh terminal -/

/-- The pool after `k` rounds of the loop that links it. -/
lemma linkPool (k : ℕ) :
    ((List.range k).foldl (fun node i =>
      let node := Function.update node i { node i with next := some (i + 1) }
      Function.update node (i + 1) { node (i + 1) with buffer := i + 1 })
      (fun _ => (⟨0, none⟩ : Node))) = fun i =>
        ⟨if i ≤ k then i else 0, if i < k then some (i + 1) else none⟩ := by
  induction k with
  | zero => funext i; cases i <;> simp
  | succ k ih =>
    rw [List.range_succ, List.foldl_append, ih]
    funext i
    simp only [List.foldl_cons, List.foldl_nil, Function.update_apply]
    split_ifs <;> simp <;> omega

lemma initPool_eq {rows : ℕ} (h : 1 ≤ rows) {i : ℕ} (hi : i < rows) :
    initPool rows i = ⟨i, if i + 1 < rows then some (i + 1) else none⟩ := by
  unfold initPool
  rw [linkPool]
  simp only [Function.update_apply]
  split_ifs <;> simp <;> omega

variable {rows columns : ℕ}

/-- **A fresh terminal** shows a blank screen. -/
theorem initTerminal_sound (hr : 2 ≤ rows ∧ rows < 65536) (hc : 1 ≤ columns ∧ columns < 65536)
    (background : ℕ → UInt8) (colour : ℕ) {v : Video} (hv : v.AreaOk) :
    Sound (initTerminal rows columns background colour v) ∧
      view (initTerminal rows columns background colour v).term = blank rows columns colour := by
  set t := (initTerminal rows columns background colour v).term with ht
  have hl : Listed t (List.range rows) := by
    refine ⟨?_, List.Perm.refl _, fun p hp => ?_⟩
    · rw [List.range_eq_range']
      refine chain_range' 0 rows (fun j _ hj => ?_) ?_ (by omega)
      · show (initPool rows j).next = _
        rw [initPool_eq (by omega) (by omega)]
        simp only
        rw [if_pos (by omega)]
      · show (initPool rows _).next = _
        rw [initPool_eq (by omega) (by omega)]
        simp only
        rw [if_neg (by omega)]
    · have hp : p < rows := hp
      show (initPool rows p).buffer = p
      rw [initPool_eq (by omega) hp]
  have hview : view t = blank rows columns colour := by
    show Screen.mk _ _ _ _ _ _ = Screen.mk _ _ _ _ _ _
    congr 1
    funext r c
    rw [hl.cellAt]
    show (if c < columns then ((List.range rows)[r]?.map fun _ => 0).getD 0 else 0) = 0
    cases (List.range rows)[r]? <;> simp
  refine ⟨⟨⟨⟨_, hl⟩, ?_⟩, fun h => ?_, hv⟩, hview⟩
  · rw [hview]; exact ok_blank hr hc
  · simp [initTerminal] at h

end Mono98.TtyRun
