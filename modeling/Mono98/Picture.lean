import Mono98.Lib.Fold
import Mono98.TtyRun

/-!
What a refresh leaves on the screen.

The blocks of the cells share no pixel, so that a refresh can be followed cell by cell. It
erases nothing: a cell comes out right when it was clean, which is to say that only pixels that
its word lights differ from the background, or when it is the saved area, whose background is
put back first. Saving a new area gives up the old one, and this is why no cell behind the
cursor may still need it.
-/

namespace Mono98.Picture

open Mono98.Graphics Mono98.Tty Mono98.TextGrid Mono98.TtyRows Mono98.TtyRun Mono98.Lib.Fold

variable (t : Terminal)

/-- The cells, in the order of the loops of `refresh_terminal`. -/
def grid : List (ℕ × ℕ) := List.range t.rows ×ˢ List.range t.columns

/-- Every cell lies on the screen of 320×200 pixels. -/
def FitsScreen : Prop := t.rows ≤ 21 ∧ t.columns ≤ 36

/-- The offset of pixel `d` of the cell `q`. -/
def dot (q d : ℕ × ℕ) : ℤ := pixel (coord q.2) (coord q.1) d

def OnScreen (p : ℤ) : Prop := 0 ≤ p ∧ p < kernelResWidth * kernelResHeight

/-- The bit of a bitmap for pixel `d`. -/
def Lit (code : ℕ) (d : ℕ × ℕ) : Prop := code.testBit (31 - d.1 * 5 - d.2) = true

instance (code : ℕ) (d : ℕ × ℕ) : Decidable (Lit code d) := inferInstanceAs (Decidable (_ = _))

/-- The word of a cell. -/
def code (q : ℕ × ℕ) : ℕ := (view t).cell q.1 q.2

/-- The background of pixel `d` of the cell `q`. -/
def paper (q d : ℕ × ℕ) : UInt8 := t.background (dot q d).toNat

/-- The block cursor is shown in the cell. -/
def HasCursor (q : ℕ × ℕ) : Prop := q.1 = t.cursorY ∧ q.2 = t.cursorX ∧ t.showCursor = true

instance (q : ℕ × ℕ) : Decidable (HasCursor t q) := inferInstanceAs (Decidable (_ ∧ _ ∧ _))

/-- What pixel `d` of the cell `q` is to show: black under the cursor, else the glyph in its
colour on the background. -/
def ink (q d : ℕ × ℕ) : UInt8 :=
  if HasCursor t q then 0
  else if Lit (code t q) d then UInt8.ofNat (code t q % 16)
  else paper t q d

/-- Off the cells the screen shows the background. -/
def OffCells (v : Video) : Prop :=
  ∀ p, OnScreen p → (∀ q ∈ grid t, ∀ d ∈ block, dot q d ≠ p) → v.mem p = t.background p.toNat

/-- The screen is the background with the cells painted on it. -/
structure Pictures (v : Video) : Prop where
  cells : ∀ q ∈ grid t, ∀ d ∈ block, v.mem (dot q d) = ink t q d
  off : OffCells t v

/-! ### Between two refreshes -/

/-- The saved area is the cell `q`. -/
def SavedAt (v : Video) (q : ℕ × ℕ) : Prop := v.areaY = coord q.1 ∧ v.areaX = coord q.2

/-- No area is saved, or the background of a cell. -/
def Saved (v : Video) : Prop :=
  v.areaX = 65535 ∧ v.areaY = 65535 ∨
    ∃ q ∈ grid t, SavedAt v q ∧ ∀ d ∈ block, v.area (d.1 * 5 + d.2) = paper t q d

/-- Only pixels that the word of the cell lights differ from the background. -/
def Clean (v : Video) (q : ℕ × ℕ) : Prop :=
  ∀ d ∈ block, ¬ Lit (code t q) d → v.mem (dot q d) = paper t q d

/-- The cell comes behind the cursor. -/
def Behind (q : ℕ × ℕ) : Prop := t.cursorY < q.1 ∨ t.cursorY = q.1 ∧ t.cursorX < q.2

/-- A refresh will find the cell clean, or will make it so with the saved area. -/
def Ready (v : Video) (q : ℕ × ℕ) : Prop := Clean t v q ∨ SavedAt v q ∧ ¬ Behind t q

/-- The video memory is ready for a refresh. -/
structure Settled (v : Video) : Prop where
  saved : Saved t v
  ready : ∀ q ∈ grid t, Ready t v q
  off : OffCells t v

variable {t} {v v' : Video} {q q' d d' : ℕ × ℕ}

/-! ### The geometry of the cells -/

lemma mem_grid : q ∈ grid t ↔ q.1 < t.rows ∧ q.2 < t.columns := by
  obtain ⟨r, c⟩ := q
  simp [grid]

/-- The cells of a grid that fits, and their coordinates. -/
lemma coord_cell (hf : FitsScreen t) (hq : q ∈ grid t) :
    coord q.1 = 30 + q.1 * 8 ∧ coord q.2 = 30 + q.2 * 8 ∧ q.1 ≤ 20 ∧ q.2 ≤ 35 := by
  obtain ⟨h1, h2⟩ := mem_grid.mp hq
  obtain ⟨h3, h4⟩ := hf
  unfold coord
  omega

lemma dot_onScreen (hf : FitsScreen t) (hq : q ∈ grid t) (hd : d ∈ block) : OnScreen (dot q d) := by
  obtain ⟨h1, h2, h3, h4⟩ := coord_cell hf hq
  rw [mem_block] at hd
  simp only [OnScreen, dot, pixel, h1, h2, kernelResWidth, kernelResHeight]
  push_cast
  omega

lemma dot_ne (hf : FitsScreen t) (hq : q ∈ grid t) (hq' : q' ∈ grid t) (hne : q ≠ q')
    (hd : d ∈ block) (hd' : d' ∈ block) : dot q d ≠ dot q' d' := by
  obtain ⟨h1, h2, h3, h4⟩ := coord_cell hf hq
  obtain ⟨h1', h2', h3', h4'⟩ := coord_cell hf hq'
  have hne' : q.1 ≠ q'.1 ∨ q.2 ≠ q'.2 := by
    by_contra hc
    push Not at hc
    exact hne (Prod.ext hc.1 hc.2)
  exact pixel_disjoint hd hd' (by omega) (by omega) (by omega)

/-- Only one cell is the saved area. -/
lemma SavedAt.unique (hf : FitsScreen t) (hq : q ∈ grid t) (hq' : q' ∈ grid t) (h : SavedAt v q)
    (h' : SavedAt v q') : q = q' := by
  obtain ⟨h1, h2, -, -⟩ := coord_cell hf hq
  obtain ⟨h1', h2', -, -⟩ := coord_cell hf hq'
  obtain ⟨e1, e2⟩ := h
  obtain ⟨e1', e2'⟩ := h'
  ext <;> omega

/-- The loops visit the cells behind the cursor after it. -/
lemma behind_of_split {u w : List (ℕ × ℕ)} (h : grid t = u ++ q :: w) (hc : HasCursor t q)
    (hq' : q' ∈ w) : Behind t q' := by
  have hp : (grid t).Pairwise fun a b => a.1 < b.1 ∨ a.1 = b.1 ∧ a.2 < b.2 :=
    pairwise_product List.pairwise_lt_range List.pairwise_lt_range
  rw [h, List.pairwise_append, List.pairwise_cons] at hp
  have hlt := hp.2.1.1 q' hq'
  obtain ⟨h1, h2, -⟩ := hc
  unfold Behind
  omega

lemma not_mem_of_split {u w : List (ℕ × ℕ)} (h : grid t = u ++ q :: w) : q ∉ u ∧ q ∉ w := by
  have hn : (grid t).Nodup := List.nodup_range.product List.nodup_range
  rw [h, List.nodup_append, List.nodup_cons] at hn
  exact ⟨fun hu => hn.2.2 q hu q (by simp) rfl, hn.2.1.1⟩

/-! ### One cell -/

/-- Only the block of the cell `q` differs. -/
def OnlyAt (q : ℕ × ℕ) (v v' : Video) : Prop :=
  ∀ p, (∀ d ∈ block, dot q d ≠ p) → v'.mem p = v.mem p

/-- The saved area is the same. -/
def SameArea (v v' : Video) : Prop :=
  v'.area = v.area ∧ v'.areaX = v.areaX ∧ v'.areaY = v.areaY

lemma SameArea.savedAt (h : SameArea v v') : SavedAt v' q ↔ SavedAt v q := by
  obtain ⟨-, hx, hy⟩ := h
  simp only [SavedAt, hx, hy]

lemma SameArea.saved (h : SameArea v v') (hs : Saved t v) : Saved t v' := by
  obtain ⟨ha, hx, hy⟩ := h
  simpa only [Saved, SavedAt, ha, hx, hy] using hs

lemma Saved.areaOk (hf : FitsScreen t) (hs : Saved t v) : v.AreaOk := by
  refine hs.imp id ?_
  rintro ⟨q, hq, ⟨hy, hx⟩, -⟩
  obtain ⟨h1, h2, h20, h35⟩ := coord_cell hf hq
  unfold Sweeps
  omega

/-- Before the cell is painted, the saved area is put back, and the cell is clean. -/
lemma restoreIn_clean (hf : FitsScreen t) (hq : q ∈ grid t) (hs : Saved t v) (hr : Ready t v q) :
    ∃ v', restoreIn q.1 q.2 v = some v' ∧ SameArea v v' ∧ OnlyAt q v v' ∧ Clean t v' q := by
  obtain ⟨hy, hx, h20, h35⟩ := coord_cell hf hq
  by_cases hat : SavedAt v q
  · -- the area is the background of this cell
    obtain ⟨e1, e2⟩ := hat
    have hne : ¬ (v.areaX = 65535 ∧ v.areaY = 65535) := by omega
    obtain ⟨q', hq', hat', harea⟩ := hs.resolve_left hne
    obtain rfl : q = q' := SavedAt.unique hf hq hq' ⟨e1, e2⟩ hat'
    obtain ⟨v', hv', -⟩ := restoreArea_some (hs.areaOk hf)
    have hdot : ∀ d, dot q d = pixel v.areaX v.areaY d := fun d => by rw [dot, e1, e2]
    refine ⟨v', ?_, restoreArea_area hv', fun p hp => ?_, fun d hd _ => ?_⟩
    · rw [restoreIn, if_pos ⟨by omega, by omega⟩, hv']
    · exact restoreArea_off hv' fun d hd => by rw [← hdot]; exact hp d hd
    · rw [hdot, restoreArea_pixel hv' hne hd, harea d hd]
  · -- it is another one, and stays saved
    have hno : ¬ (30 + q.1 * 8 = v.areaY ∧ 30 + q.2 * 8 = v.areaX) := fun h =>
      hat ⟨by omega, by omega⟩
    refine ⟨v, by rw [restoreIn, if_neg hno], ⟨rfl, rfl, rfl⟩, fun _ _ => rfl, ?_⟩
    exact hr.resolve_right fun h => hat h.1

/-- A cell without the cursor. -/
lemma refreshCell_glyph (hf : FitsScreen t) (hq : q ∈ grid t) (hs : Saved t v) (hr : Ready t v q)
    (hc : ¬ HasCursor t q) : ∃ v', refreshCell t q.1 q.2 (code t q) v = some v' ∧
      SameArea v v' ∧ OnlyAt q v v' ∧ ∀ d ∈ block, v'.mem (dot q d) = ink t q d := by
  obtain ⟨v₁, h₁, hsame, honly, hclean⟩ := restoreIn_clean hf hq hs hr
  refine ⟨displayBitmap (code t q) (coord q.2) (coord q.1) v₁, ?_, hsame, fun p hp => ?_,
    fun d hd => ?_⟩
  · rw [refreshCell, h₁, Option.bind_eq_bind, Option.bind_some]
    exact if_neg hc
  · rw [displayBitmap_off _ _ _ _ hp]
    exact honly p hp
  · rw [dot, displayBitmap_pixel _ _ _ _ hd, ink, if_neg hc]
    by_cases hl : Lit (code t q) d
    · rw [if_pos hl]
      exact if_pos hl
    · rw [if_neg hl]
      exact (if_neg hl).trans (hclean d hd hl)

/-- The cell with the cursor: its background is saved, and the block is black. -/
lemma refreshCell_cursor (hf : FitsScreen t) (hq : q ∈ grid t) (hs : Saved t v) (hr : Ready t v q)
    (hc : HasCursor t q) (h0 : code t q = 0) :
    ∃ v', refreshCell t q.1 q.2 (code t q) v = some v' ∧ Saved t v' ∧ SavedAt v' q ∧
      OnlyAt q v v' ∧ ∀ d ∈ block, v'.mem (dot q d) = ink t q d := by
  obtain ⟨v₁, h₁, -, honly, hclean⟩ := restoreIn_clean hf hq hs hr
  obtain ⟨hy, hx, h20, h35⟩ := coord_cell hf hq
  have hsw : Sweeps (coord q.1) ∧ Sweeps (coord q.2) := by unfold Sweeps; omega
  obtain ⟨v₂, h₂⟩ : ∃ v₂, saveArea (coord q.2) (coord q.1) v₁ = some v₂ := by
    rw [saveArea, if_pos hsw]
    exact ⟨_, rfl⟩
  obtain ⟨hmem, hax, hay⟩ := saveArea_rest h₂
  have hat : SavedAt v₂ q := ⟨hay, hax⟩
  refine ⟨displayBitmap cursorBitmap (coord q.2) (coord q.1) v₂, ?_,
    Or.inr ⟨q, hq, hat, fun d hd => ?_⟩, hat, fun p hp => ?_, fun d hd => ?_⟩
  · rw [refreshCell, h₁, Option.bind_eq_bind, Option.bind_some, h₂]
    exact if_pos hc
  · -- a blank cell lights no pixel
    rw [displayBitmap_area, saveArea_area h₂ hd]
    exact hclean d hd (by rw [h0]; simp [Lit])
  · rw [displayBitmap_off _ _ _ _ hp, hmem]
    exact honly p hp
  · have hl : ∀ d ∈ block, Lit cursorBitmap d := by decide
    rw [dot, displayBitmap_pixel _ _ _ _ hd, ink, if_pos hc]
    exact if_pos (hl d hd)

/-! ### The whole screen -/

/-- The nested loops of a refresh are one loop over the cells. -/
lemma refreshTerminal_eq {xs : List ℕ} (h : Listed t xs) (redraw : Bool) (v : Video) :
    refreshTerminal t redraw v = (grid t).foldlM
      (fun v q => refreshCell t q.1 q.2 (code t q) v)
      (if redraw then drawBackground t.background v else v) := by
  rw [refreshTerminal, h.nodes, Option.bind_eq_bind, Option.bind_some, grid, foldlM_product,
    ← h.length]
  refine foldlM_zipIdx (fun r hr v => foldlM_congr (fun c hc v => ?_) v) _
  have hp : xs[r] < t.rows := h.lt (List.getElem_mem hr)
  have hcell : code t (r, c) = t.cells (t.node xs[r]).buffer c := by
    have hc := List.mem_range.mp hc
    simp [code, view, hc, h.cellAt, hr, h.own _ hp]
  rw [hcell]

/-- While the cells of `w` are still to come: those of `u` are painted, and if the cursor is
among them, its background is the one that is saved. -/
structure Painting (t : Terminal) (u w : List (ℕ × ℕ)) (v : Video) : Prop where
  saved : Saved t v
  done : ∀ q ∈ u, (∀ d ∈ block, v.mem (dot q d) = ink t q d) ∧ (HasCursor t q → SavedAt v q)
  todo : ∀ q ∈ w, Ready t v q
  off : OffCells t v

lemma Clean.congr (hf : FitsScreen t) (hq : q ∈ grid t) (hq' : q' ∈ grid t) (hne : q ≠ q')
    (h : OnlyAt q v v') (hc : Clean t v q') : Clean t v' q' := fun d hd hl => by
  rw [h _ fun e he => dot_ne hf hq hq' hne he hd]
  exact hc d hd hl

/-- One round. -/
lemma Painting.step (hf : FitsScreen t) (hblank : ∀ q ∈ grid t, HasCursor t q → code t q = 0)
    {u w : List (ℕ × ℕ)} (hsplit : grid t = u ++ q :: w) (h : Painting t u (q :: w) v) :
    ∃ v', refreshCell t q.1 q.2 (code t q) v = some v' ∧ Painting t (u ++ [q]) w v' := by
  have hmem : ∀ {q'}, q' ∈ u ∨ q' ∈ w → q' ∈ grid t ∧ q ≠ q' := fun hq' => by
    obtain ⟨hu, hw⟩ := not_mem_of_split hsplit
    refine ⟨by rw [hsplit]; simp; tauto, ?_⟩
    rintro rfl
    exact hq'.elim hu hw
  have hq : q ∈ grid t := by rw [hsplit]; simp
  have hr := h.todo q (by simp)
  -- what is painted elsewhere stays
  have keep : ∀ {v'}, OnlyAt q v v' → ∀ q' ∈ u, ∀ d ∈ block, v'.mem (dot q' d) = ink t q' d :=
    fun honly q' hq' d hd => by
      obtain ⟨hg, hne⟩ := hmem (Or.inl hq')
      rw [honly _ fun e he => dot_ne hf hq hg hne he hd]
      exact (h.done q' hq').1 d hd
  have off : ∀ {v'}, OnlyAt q v v' → OffCells t v' := fun honly p hp hno => by
    rw [honly p (hno q hq)]
    exact h.off p hp hno
  by_cases hc : HasCursor t q
  · obtain ⟨v', hv', hs', hat, honly, hink⟩ :=
      refreshCell_cursor hf hq h.saved hr hc (hblank q hq hc)
    refine ⟨v', hv', hs', fun q' hq' => ?_, fun q' hq' => ?_, off honly⟩
    · rcases List.mem_append.mp hq' with hu | hu
      · refine ⟨keep honly q' hu, fun hc' => ?_⟩
        exact absurd (Prod.ext (hc.1.trans hc'.1.symm) (hc.2.1.trans hc'.2.1.symm))
          (hmem (Or.inl hu)).2
      · rw [List.mem_singleton.mp hu]
        exact ⟨hink, fun _ => hat⟩
    · -- the cells to come are behind the cursor, and need no saved area
      obtain ⟨hg, hne⟩ := hmem (Or.inr hq')
      refine Or.inl (Clean.congr hf hq hg hne honly ?_)
      exact (h.todo q' (by simp [hq'])).resolve_right fun hr' =>
        hr'.2 (behind_of_split hsplit hc hq')
  · obtain ⟨v', hv', hsame, honly, hink⟩ := refreshCell_glyph hf hq h.saved hr hc
    refine ⟨v', hv', hsame.saved h.saved, fun q' hq' => ?_, fun q' hq' => ?_, off honly⟩
    · rcases List.mem_append.mp hq' with hu | hu
      · exact ⟨keep honly q' hu, fun hc' => hsame.savedAt.mpr ((h.done q' hu).2 hc')⟩
      · rw [List.mem_singleton.mp hu]
        exact ⟨hink, fun hc' => absurd hc' hc⟩
    · obtain ⟨hg, hne⟩ := hmem (Or.inr hq')
      exact (h.todo q' (by simp [hq'])).imp (Clean.congr hf hq hg hne honly)
        (And.imp_left hsame.savedAt.mpr)

/-- **A refresh** of a settled screen leaves the picture, and the screen is settled again. -/
theorem refresh_pictures {xs : List ℕ} (hl : Listed t xs) (hf : FitsScreen t)
    (hblank : ∀ q ∈ grid t, HasCursor t q → code t q = 0) (h : Settled t v) :
    ∃ v', refreshTerminal t false v = some v' ∧ Pictures t v' ∧ Settled t v' := by
  obtain ⟨v', hv', hp⟩ := foldlM_inv
    (f := fun v q => refreshCell t q.1 q.2 (code t q) v) (l := grid t)
    (fun u v => ∀ w, grid t = u ++ w → Painting t u w v)
    (fun u q w v hsplit hp => by
      obtain ⟨v', hv', hp'⟩ := (hp _ hsplit).step hf hblank hsplit
      refine ⟨v', hv', fun w' hw' => ?_⟩
      rw [hsplit, List.append_assoc, List.append_cancel_left_eq] at hw'
      obtain rfl : w = w' := by simpa using hw'
      exact hp')
    (b := v) (fun w hw =>
      ⟨h.saved, by simp, fun q hq => h.ready q (by rw [hw]; simpa using hq), h.off⟩)
  have hend := hp [] (by simp)
  refine ⟨v', by rw [refreshTerminal_eq hl]; exact hv', ⟨fun q hq => (hend.done q hq).1, hend.off⟩,
    hend.saved, fun q hq => ?_, hend.off⟩
  obtain ⟨hink, hcur⟩ := hend.done q hq
  by_cases hc : HasCursor t q
  · refine Or.inr ⟨hcur hc, ?_⟩
    obtain ⟨h1, h2, -⟩ := hc
    unfold Behind
    omega
  · refine Or.inl fun d hd hlit => ?_
    rw [hink d hd, ink, if_neg hc, if_neg hlit]

/-- Drawing the background settles the screen, whatever has been on it. -/
lemma settled_background (hf : FitsScreen t) (hs : Saved t v) :
    Settled t (drawBackground t.background v) := by
  have hmem : ∀ p, OnScreen p → (drawBackground t.background v).mem p = t.background p.toNat :=
    fun p hp => if_pos hp
  exact ⟨hs, fun q hq => Or.inl fun d hd _ => hmem _ (dot_onScreen hf hq hd),
    fun p hp _ => hmem p hp⟩

/-- A refresh with the background redrawn leaves the picture. -/
theorem redraw_pictures {xs : List ℕ} (hl : Listed t xs) (hf : FitsScreen t)
    (hblank : ∀ q ∈ grid t, HasCursor t q → code t q = 0) (hs : Saved t v) :
    ∃ v', refreshTerminal t true v = some v' ∧ Pictures t v' ∧ Settled t v' :=
  refresh_pictures hl hf hblank (settled_background hf hs)

/-- There is only one picture. -/
lemma Pictures.unique (hv : Pictures t v) (hv' : Pictures t v') {p : ℤ} (hp : OnScreen p) :
    v.mem p = v'.mem p := by
  by_cases h : ∃ q ∈ grid t, ∃ d ∈ block, dot q d = p
  · obtain ⟨q, hq, d, hd, rfl⟩ := h
    rw [hv.cells q hq d hd, hv'.cells q hq d hd]
  · have hno : ∀ q ∈ grid t, ∀ d ∈ block, dot q d ≠ p := fun q hq d hd he => h ⟨q, hq, d, hd, he⟩
    rw [hv.off p hp hno, hv'.off p hp hno]

end Mono98.Picture
