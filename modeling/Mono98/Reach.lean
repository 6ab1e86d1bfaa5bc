import Mono98.Tty

/-!
How far the drawing calls reach.

The screen is the part of the memory from `VIDEO_MEMORY` on, and nothing keeps a coordinate within
its 64000 bytes. A call that works on some offsets alone does the same on two screens that agree
there, and leaves all others as they are.
-/

namespace Mono98.Reach

open Mono98.Graphics Mono98.Tty Mono98.Lib.Stamp

def videoMemory : ℕ := 0xA0000

variable {P : ℤ → Prop} {v v' w w' : Video} {code x y row i : ℕ}

/-- The two screens agree on `P`, and in the saved area. -/
structure Alike (P : ℤ → Prop) (v w : Video) : Prop where
  mem : ∀ p, P p → v.mem p = w.mem p
  area : v.area = w.area
  areaX : v.areaX = w.areaX
  areaY : v.areaY = w.areaY

/-- A drawing call reads and writes the offsets in `P` alone. -/
structure Within (P : ℤ → Prop) (g : Video → Option Video) : Prop where
  agree : ∀ v w v', Alike P v w → g v = some v' → ∃ w', g w = some w' ∧ Alike P v' w'
  rest : ∀ v v', g v = some v' → ∀ p, ¬ P p → v'.mem p = v.mem p

/-- One call after the other. -/
lemma Within.bind {g g' : Video → Option Video} (hg : Within P g) (hg' : Within P g') :
    Within P fun v => (g v).bind g' := by
  refine ⟨fun v w v' h hv => ?_, fun v v' hv p hp => ?_⟩
  · obtain ⟨v₁, hv₁, hv⟩ := Option.bind_eq_some_iff.mp hv
    obtain ⟨w₁, hw₁, h₁⟩ := hg.agree v w v₁ h hv₁
    obtain ⟨w', hw, h'⟩ := hg'.agree v₁ w₁ v' h₁ hv
    exact ⟨w', by simp only [hw₁, Option.bind_some, hw], h'⟩
  · obtain ⟨v₁, hv₁, hv⟩ := Option.bind_eq_some_iff.mp hv
    rw [hg'.rest v₁ v' hv p hp, hg.rest v v₁ hv₁ p hp]

lemma within_drawBackground (img : ℕ → UInt8)
    (h : ∀ p : ℤ, 0 ≤ p → p < kernelResWidth * kernelResHeight → P p) :
    Within P fun v => some (drawBackground img v) := by
  refine ⟨fun v w v' ha hv => ⟨_, rfl, ?_⟩, fun v v' hv p hp => ?_⟩
  · obtain rfl := Option.some.inj hv
    refine ⟨fun p hp => ?_, ha.area, ha.areaX, ha.areaY⟩
    simp only [drawBackground, ha.mem p hp]
  · obtain rfl := Option.some.inj hv
    exact if_neg fun hin => hp (h p hin.1 hin.2)

lemma within_displayBitmap (code : ℕ) (h : ∀ d ∈ block, P (pixel x y d)) :
    Within P fun v => some (displayBitmap code x y v) := by
  refine ⟨fun v w v' ha hv => ⟨_, rfl, ?_⟩, fun v v' hv p hp => ?_⟩
  · obtain rfl := Option.some.inj hv
    exact ⟨stamp_congr _ _ (fun _ _ => rfl) ha.mem, ha.area, ha.areaX, ha.areaY⟩
  · obtain rfl := Option.some.inj hv
    exact displayBitmap_off _ _ _ _ fun d hd he => hp (he ▸ h d hd)

lemma within_saveArea (h : ∀ d ∈ block, P (pixel x y d)) : Within P (saveArea x y) := by
  refine ⟨fun v w v' ha hv => ?_, fun v v' hv p _ => by rw [(saveArea_rest hv).1]⟩
  unfold saveArea at hv ⊢
  split_ifs at hv ⊢
  obtain rfl := Option.some.inj hv
  refine ⟨_, rfl, ha.mem, funext fun k => ?_, rfl, rfl⟩
  exact stamp_congr (fun d : ℕ × ℕ => d.1 * 5 + d.2) _ (P := fun _ => True)
    (fun d hd => congrArg some (ha.mem _ (h d hd))) (fun k _ => congrFun ha.area k) k trivial

/-- The saved area goes back to the cell it comes from. -/
lemma within_restoreIn (hx : coord i = 30 + i * 8) (hy : coord row = 30 + row * 8)
    (h : ∀ d ∈ block, P (pixel (coord i) (coord row) d)) : Within P (restoreIn row i) := by
  refine ⟨fun v w v' ha hv => ?_, fun v v' hv p hp => ?_⟩
  · unfold restoreIn restoreArea at hv ⊢
    rw [← ha.areaX, ← ha.areaY]
    split_ifs at hv ⊢
    · exact ⟨w, rfl, Option.some.inj hv ▸ ha⟩
    · obtain rfl := Option.some.inj hv
      rw [← ha.area]
      refine ⟨_, rfl, fun p hp => ?_, rfl, rfl, rfl⟩
      exact stamp_congr (pixel v.areaX v.areaY)
        (fun d : ℕ × ℕ => some (v.area (d.1 * 5 + d.2))) (fun _ _ => rfl) ha.mem p hp
    · exact ⟨w, rfl, Option.some.inj hv ▸ ha⟩
  · unfold restoreIn at hv
    split_ifs at hv with hat
    · refine restoreArea_off hv fun d hd he => hp (he ▸ ?_)
      rw [← hat.1, ← hat.2, ← hx, ← hy]
      exact h d hd
    · rw [Option.some.inj hv]

end Mono98.Reach
