import Mono98.TextGrid
import Mono98.Tty

/-!
The row list of a terminal, and the screen it stands for.

As long as the list runs through the whole pool once, every walk to a row of the screen ends
on a node, and the pointer operations of the driver are the operations of the text screen.
-/

namespace Mono98.TtyRows

open Mono98.Graphics Mono98.Tty Mono98.TextGrid Mono98.Lib.Links Mono98.Lib.Word

/-- Following `next` from `screen` meets each node of the pool once and then the null
pointer, and each node owns the row buffer it was allocated with. -/
structure Listed (t : Terminal) (xs : List ℕ) : Prop where
  chain : Chain t.next t.screen xs
  perm : xs.Perm (List.range t.rows)
  own : ∀ p < t.rows, (t.node p).buffer = p

/-- The screen a terminal shows. -/
def view (t : Terminal) : Screen where
  rows := t.rows
  columns := t.columns
  x := t.cursorX
  y := t.cursorY
  colour := t.colour
  cell := fun r c => if c < t.columns then (t.cellAt r c).getD 0 else 0

/-- What the text operations leave alone. -/
def rest (t : Terminal) : (ℕ → UInt8) × Bool × (ℕ → UInt8) × ℕ × ℕ :=
  (t.background, t.showCursor, t.textBuffer, t.textBuflen, t.textOffset)

variable {t t' : Terminal} {xs : List ℕ}

lemma Listed.congr (h : Listed t xs) (hn : t'.node = t.node) (hs : t'.screen = t.screen)
    (hr : t'.rows = t.rows) : Listed t' xs := by
  obtain ⟨hc, hp, ho⟩ := h
  have hnext : t'.next = t.next := funext fun p => by simp only [Terminal.next, hn]
  exact ⟨by rwa [hnext, hs], by rwa [hr], by rwa [hn, hr]⟩

lemma Listed.length (h : Listed t xs) : xs.length = t.rows := by
  simpa using h.perm.length_eq

lemma Listed.nodup (h : Listed t xs) : xs.Nodup := h.perm.nodup_iff.mpr List.nodup_range

lemma Listed.lt (h : Listed t xs) {p : ℕ} (hp : p ∈ xs) : p < t.rows := by
  simpa using h.perm.mem_iff.mp hp

lemma Listed.nodeAt (h : Listed t xs) (n : ℕ) : t.nodeAt n = xs[n]? := walk_of_chain h.chain n

lemma Listed.nodes (h : Listed t xs) : t.nodesFrom t.screen = some xs :=
  visited_of_chain h.chain (by rw [h.length])

lemma Listed.cellAt (h : Listed t xs) (r c : ℕ) :
    t.cellAt r c = xs[r]?.map fun p => t.cells p c := by
  unfold Terminal.cellAt
  rw [h.nodeAt]
  cases hp : xs[r]? with
  | none => rfl
  | some p =>
    have : (t.node p).buffer = p := h.own p (h.lt (List.mem_of_getElem? hp))
    simp [this]

/-- Every cell of the screen is there. -/
lemma Listed.cellAt_view (h : Listed t xs) {r c : ℕ} (hr : r < t.rows) (hc : c < t.columns) :
    t.cellAt r c = some ((view t).cell r c) := by
  have hlt : r < xs.length := by rw [h.length]; exact hr
  simp [view, hc, h.cellAt, hlt]

/-! ### The cursor -/

@[simp] lemma view_wrap (t : Terminal) : view t.wrap = (view t).wrap := by
  unfold Terminal.wrap Screen.wrap
  exact apply_ite view _ _ _

@[simp] lemma view_newline (t : Terminal) : view t.newline = (view t).newline := rfl

@[simp] lemma view_advance (t : Terminal) : view t.advance = (view t).advance := rfl

@[simp] lemma view_stepBack (t : Terminal) : view t.stepBack = (view t).stepBack := by
  unfold Terminal.stepBack Screen.stepBack
  exact apply_ite view _ _ _

lemma wrap_rows (t : Terminal) : t.wrap.rows = t.rows := by
  unfold Terminal.wrap; split <;> rfl

lemma wrap_columns (t : Terminal) : t.wrap.columns = t.columns := by
  unfold Terminal.wrap; split <;> rfl

lemma wrap_colour (t : Terminal) : t.wrap.colour = t.colour := by
  unfold Terminal.wrap; split <;> rfl

lemma stepBack_rows (t : Terminal) : t.stepBack.rows = t.rows := by
  simp only [Terminal.stepBack]; split <;> rfl

lemma stepBack_columns (t : Terminal) : t.stepBack.columns = t.columns := by
  simp only [Terminal.stepBack]; split <;> rfl

lemma wrap_rest (t : Terminal) : rest t.wrap = rest t := by
  unfold Terminal.wrap; split <;> rfl

lemma stepBack_rest (t : Terminal) : rest t.stepBack = rest t := by
  simp only [Terminal.stepBack]; split <;> rfl

lemma Listed.wrap (h : Listed t xs) : Listed t.wrap xs := by
  unfold Terminal.wrap
  split
  · exact h.congr rfl rfl rfl
  · exact h

lemma Listed.stepBack (h : Listed t xs) : Listed t.stepBack xs := by
  simp only [Terminal.stepBack]
  split <;> exact h.congr rfl rfl rfl

/-! ### Storing a cell -/

lemma Listed.storeCell (h : Listed t xs) (hx : t.cursorX < t.columns) (hy : t.cursorY < t.rows)
    (v : ℕ) : ∃ t', t.storeCell v = some t' ∧ Listed t' xs ∧ view t' = (view t).store v ∧
      rest t' = rest t := by
  have hlt : t.cursorY < xs.length := by rw [h.length]; exact hy
  have hb : (t.node xs[t.cursorY]).buffer = xs[t.cursorY] := h.own _ (h.lt (List.getElem_mem _))
  set b := xs[t.cursorY] with hbdef
  set t' : Terminal :=
    { t with cells := Function.update t.cells b (Function.update (t.cells b) t.cursorX v) }
  have h' : Listed t' xs := h.congr rfl rfl rfl
  refine ⟨t', ?_, h', ?_, rfl⟩
  · unfold Terminal.storeCell
    rw [h.nodeAt, List.getElem?_eq_getElem hlt]
    simp [hx, ← hbdef, hb, t']
  · show Screen.mk _ _ _ _ _ _ = Screen.mk _ _ _ _ _ _
    congr 1
    funext r c
    simp only [h'.cellAt, h.cellAt, view, Function.update_apply, t']
    by_cases hr : r = t.cursorY
    · subst hr
      by_cases hc : c = t.cursorX
      · subst hc; simp [hlt, hx, ← hbdef]
      · simp [hlt, hc, ← hbdef]
    · rcases Nat.lt_or_ge r xs.length with hr' | hr'
      · have hne : xs[r] ≠ b := fun he => hr ((h.nodup.getElem_inj_iff).mp he)
        simp [hr', hr, hne]
      · simp [List.getElem?_eq_none hr', hr]

/-! ### Scrolling -/

/-- Row `r` of the screen after the head `a` of the list has gone blank to its end. -/
lemma rotated_row {cells : ℕ → ℕ → ℕ} {a : ℕ} {ys : List ℕ} (f : ℕ → ℕ) (ha : a ∉ ys)
    (r c : ℕ) : ((ys ++ [a])[r]?.map fun p => Function.update cells a f p c).getD 0 =
      if r < ys.length then ((a :: ys)[r + 1]?.map fun p => cells p c).getD 0
      else if r = ys.length then f c else 0 := by
  by_cases hr : r < ys.length
  · have hne : ys[r] ≠ a := fun he => ha (he ▸ List.getElem_mem _)
    rw [List.getElem?_append_left hr, List.getElem?_eq_getElem hr]
    simp [hr, hne]
  · rw [if_neg hr, List.getElem?_append_right (by omega)]
    by_cases he : r = ys.length
    · subst he; simp
    · rw [if_neg he, List.getElem?_eq_none (by simp; omega)]
      rfl

lemma Listed.rotate (h : Listed t xs) (h2 : 2 ≤ t.rows) :
    ∃ t' xs', t.rotate = some t' ∧ Listed t' xs' ∧ view t' = (view t).scroll ∧
      rest t' = rest t := by
  have hlen := h.length
  have hnd := h.nodup
  -- the head `a` and the last node `b` are two nodes
  obtain ⟨a, ys, rfl⟩ : ∃ a ys, xs = a :: ys := by
    cases xs with
    | nil => simp at hlen; omega
    | cons a ys => exact ⟨a, ys, rfl⟩
  obtain ⟨zs, b, rfl⟩ : ∃ zs b, ys = zs ++ [b] := by
    rcases List.eq_nil_or_concat ys with rfl | ⟨zs, b, rfl⟩
    · simp at hlen; omega
    · exact ⟨zs, b, by simp⟩
  obtain ⟨ha, hnd'⟩ := List.nodup_cons.mp hnd
  have hba : b ≠ a := by rintro rfl; simp at ha
  have hzs : ∀ c ∈ zs, c ≠ a ∧ c ≠ b := by
    intro c hc
    refine ⟨by rintro rfl; simp [hc] at ha, ?_⟩
    exact (List.nodup_append.mp hnd').2.2 c hc b (by simp)
  obtain ⟨hs, hchain⟩ := h.chain
  have hown : (t.node a).buffer = a := h.own a (h.lt (by simp))
  set node := Function.update (Function.update t.node b { t.node b with next := some a }) a
    { t.node a with next := none } with hnode
  set t' : Terminal := { t with
    screen := t.next a
    cursorY := dec 16 t.cursorY
    node := node
    cells := Function.update t.cells a (t.blankRow (t.cells a)) } with ht'
  have hbuf : ∀ p, (node p).buffer = (t.node p).buffer := by
    intro p
    by_cases hpa : p = a
    · subst hpa; simp [hnode]
    · by_cases hpb : p = b
      · subst hpb; simp [hnode, hpa]
      · simp [hnode, hpa, hpb]
  have hchain' : Chain t'.next t'.screen (zs ++ [b] ++ [a]) := by
    refine rotate h.chain (fun c hc => ?_) ?_ ?_
    · simp [Terminal.next, ht', hnode, hzs c hc]
    · simp [Terminal.next, ht', hnode, hba]
    · simp [Terminal.next, ht', hnode]
  have h' : Listed t' (zs ++ [b] ++ [a]) := by
    refine ⟨hchain', (List.perm_append_singleton a (zs ++ [b])).trans h.perm, fun p hp => ?_⟩
    show (node p).buffer = p
    rw [hbuf]
    exact h.own p hp
  refine ⟨t', _, ?_, h', ?_, rfl⟩
  · have hnodes : t.nodesFrom (t.next a) = some (zs ++ [b]) := by
      refine visited_of_chain hchain ?_
      rw [← hlen]
      simp
    unfold Terminal.rotate
    simp [hs, hnodes, Function.update_of_ne hba.symm, hown, ht', hnode]
  · show Screen.mk _ _ _ _ _ _ = Screen.mk _ _ _ _ _ _
    congr 1
    funext r c
    rw [h'.cellAt]
    simp only [view, h.cellAt, ht']
    rw [rotated_row _ ha]
    simp only [List.length_cons] at hlen
    by_cases hc : c < t.columns
    · simp only [hc, if_true, Terminal.blankRow]
      split_ifs <;> first | rfl | omega
    · simp [hc]

/-! ### One byte -/

/-- Where the list stands after a step, what the screen shows, and what was left alone. -/
structure Steps (t t' : Terminal) (s : Screen) : Prop where
  listed : ∃ xs, Listed t' xs
  view : view t' = s
  rest : rest t' = rest t

lemma Steps.rows {s : Screen} (h : Steps t t' s) : t'.rows = s.rows := congrArg Screen.rows h.view

lemma Steps.columns {s : Screen} (h : Steps t t' s) : t'.columns = s.columns :=
  congrArg Screen.columns h.view

lemma Steps.showCursor {s : Screen} (h : Steps t t' s) : t'.showCursor = t.showCursor :=
  congrArg (fun p => p.2.1) h.rest

/-- What the driver draws for a byte, once the text is `t`. -/
def draw (p : Paint) (t : Terminal) (v : Video) : Option Video :=
  match p with
  | .nothing => some v
  | .background => some (drawBackground t.background v)
  | .everything => refreshTerminal t true v

lemma background_eq (h : rest t' = rest t) : t'.background = t.background :=
  congrArg Prod.fst h

/-- Scrolling when the cursor is below the last row. -/
lemma follow_eq (h : Listed t xs) (h2 : 2 ≤ t.rows) (v : Video) :
    ∃ t' xs', Listed t' xs' ∧ view t' = (view t).follow ∧ rest t' = rest t ∧
      scrollIfBelow ⟨t, v⟩ =
        (draw (if t.rows ≤ t.cursorY then .background else .nothing) t' v).map (Machine.mk t') := by
  unfold scrollIfBelow
  by_cases hy : t.rows ≤ t.cursorY
  · obtain ⟨t', xs', hrot, h', hview, hrest⟩ := h.rotate h2
    refine ⟨t', xs', h', ?_, hrest, ?_⟩
    · rw [hview]; exact (if_pos hy).symm
    · rw [if_pos hy, if_pos hy]
      simp [terminalScroll, hrot, draw]
  · exact ⟨t, xs, h, (if_neg hy).symm, rfl, by rw [if_neg hy, if_neg hy]; rfl⟩

/-- Wrapping and scrolling leave the size of the screen and the colour alone. -/
lemma follow_frame (h : view t' = (view t.wrap).follow) :
    t'.rows = t.rows ∧ t'.columns = t.columns ∧ t'.colour = t.colour := by
  refine ⟨?_, ?_, ?_⟩
  · calc t'.rows = (view t.wrap).follow.rows := congrArg Screen.rows h
      _ = t.wrap.rows := Screen.follow_rows _
      _ = t.rows := wrap_rows t
  · calc t'.columns = (view t.wrap).follow.columns := congrArg Screen.columns h
      _ = t.wrap.columns := Screen.follow_columns _
      _ = t.columns := wrap_columns t
  · calc t'.colour = (view t.wrap).follow.colour := congrArg Screen.colour h
      _ = t.wrap.colour := Screen.follow_colour _
      _ = t.colour := wrap_colour t

variable (around : ℤ → ℕ)

/-- **One byte**: the terminal shows what the text screen makes of it, and draws what the
screen says, unless the drawing never comes back. -/
theorem tputsByte_eq {m : Machine} (h : Listed m.term xs) (ok : Ok (view m.term)) (c : UInt8) :
    ∃ t', Steps m.term t' (put (fontAt around) (view m.term) c) ∧
      tputsByte around m c = (draw (paint (view m.term) c) t' m.video).map (Machine.mk t') := by
  have hr : 2 ≤ m.term.rows := ok.rows.1
  have hrw := wrap_rows m.term
  unfold tputsByte put paint
  by_cases hcol : IsColour c
  · have hcol' : c &&& 0xF0 = 0xF0 := hcol
    refine ⟨{ m.term with colour := (c &&& 0x0F).toNat }, ⟨⟨xs, h.congr rfl rfl rfl⟩, ?_, rfl⟩, ?_⟩
    · rw [if_pos hcol]; rfl
    · rw [if_pos hcol, if_pos hcol']; rfl
  have hcol' : ¬ (c &&& 0xF0 = 0xF0) := hcol
  simp only [hcol, hcol', if_false]
  by_cases hnl : c = 10
  · have hn : Listed m.term.wrap.newline xs := h.wrap.congr rfl rfl rfl
    obtain ⟨t', xs', h', hview, hrest, heq⟩ := follow_eq hn (by rw [← hrw] at hr; exact hr) m.video
    refine ⟨t', ⟨⟨xs', h'⟩, ?_, hrest.trans (wrap_rest m.term)⟩, ?_⟩
    · rw [if_pos hnl, hview, view_newline, view_wrap]
    · rw [if_pos hnl, if_pos hnl, heq, ← view_wrap, ← view_newline]
      congr 2
      simp only [view, Terminal.newline, hrw]
  simp only [hnl, if_false]
  by_cases hbs : c = 8
  · simp only [hbs, if_true, ← view_wrap]
    by_cases h0 : (view m.term.wrap).x = 0 ∧ (view m.term.wrap).y = 0
    · refine ⟨m.term.wrap, ⟨⟨xs, h.wrap⟩, (if_pos h0).symm, wrap_rest m.term⟩, ?_⟩
      have h0' : m.term.wrap.cursorX = 0 ∧ m.term.wrap.cursorY = 0 := h0
      rw [if_pos h0, if_pos h0']; rfl
    · have h0' : ¬ (m.term.wrap.cursorX = 0 ∧ m.term.wrap.cursorY = 0) := h0
      obtain ⟨hx, hy⟩ := ok.stepBack (by rwa [← view_wrap])
      rw [← view_wrap, ← view_stepBack] at hx hy
      obtain ⟨t', hst, h', hview, hrest⟩ := h.wrap.stepBack.storeCell
        (by rw [stepBack_columns, wrap_columns]; exact hx)
        (by rw [stepBack_rows, wrap_rows]; exact hy) 0
      refine ⟨t', ⟨⟨xs, h'⟩, ?_, hrest.trans ((stepBack_rest _).trans (wrap_rest _))⟩, ?_⟩
      · rw [if_neg h0, hview, view_stepBack]
      · rw [if_neg h0, if_neg h0', hst]
        simp only [draw, Option.bind_eq_bind, Option.bind_some]
        cases refreshTerminal t' true m.video <;> rfl
  · simp only [hbs, if_false]
    obtain ⟨t₁, xs₁, h₁, hview₁, hrest₁, heq⟩ :=
      follow_eq h.wrap (by rw [hrw]; exact hr) m.video
    obtain ⟨hx, hy⟩ := ok.follow
    rw [← view_wrap, ← hview₁] at hx hy
    obtain ⟨hr₁, hc₁, hcol₁⟩ := follow_frame hview₁
    obtain ⟨t', hst, h', hview, hrest⟩ := h₁.storeCell (by rw [hc₁]; exact hx)
      (by rw [hr₁]; exact hy) (fontAt around c ||| m.term.colour)
    refine ⟨t'.advance,
      ⟨⟨xs₁, h'.congr rfl rfl rfl⟩, ?_, hrest.trans (hrest₁.trans (wrap_rest _))⟩, ?_⟩
    · rw [view_advance, hview, hview₁, view_wrap]; rfl
    · rw [heq, ← view_wrap]
      have hbg : t'.advance.background = t₁.background := background_eq hrest
      have hrows : (view m.term).rows = m.term.wrap.rows := hrw.symm
      have hcur : (view m.term.wrap).y = m.term.wrap.cursorY := rfl
      rw [hrows, hcur]
      split_ifs <;> simp [draw, hst, hcol₁, hbg]

end Mono98.TtyRows
