import Mathlib.Data.Set.Basic
import Mathlib.Data.Set.BooleanAlgebra
import Mathlib.Order.CompletePartialOrder

/-!
# Blocks that share a bitmap

Every block covers some slots, and a mark of the block writes one value to all slots of
its region. `Agrees` says that the marks look like writes to the blocks: a block shows
its last mark, and a mark of one block is not seen in another. That holds whatever the
bitmap starts with exactly if the marked blocks are clean.
-/

namespace Marks

open scoped Classical in
/-- Write `v` to every slot of `R`. -/
noncomputable def paint {ι : Type*} (R : Set ι) (v : Bool) (f : ι → Bool) : ι → Bool :=
  fun i => if i ∈ R then v else f i

variable {β ι : Type*} {R C : β → Set ι} {B F : Set β} {f : ι → Bool} {ops : List (β × Bool)} {b : β}
  {i : ι} {v : Bool} {s : Set ι}

theorem paint_mem (hi : i ∈ s) : paint s v f i = v := if_pos hi

theorem paint_notMem (hi : i ∉ s) : paint s v f i = f i := if_neg hi

/-- The bitmap after the marks of a list, the first one first. -/
noncomputable def paintAll (R : β → Set ι) (f : ι → Bool) (ops : List (β × Bool)) : ι → Bool :=
  ops.foldl (fun f p => paint (R p.1) p.2 f) f

@[simp] theorem paintAll_nil : paintAll R f [] = f := rfl

@[simp] theorem paintAll_cons (p : β × Bool) (ops : List (β × Bool)) :
    paintAll R f (p :: ops) = paintAll R (paint (R p.1) p.2 f) ops := rfl

theorem paintAll_append (xs ys : List (β × Bool)) :
    paintAll R f (xs ++ ys) = paintAll R (paintAll R f xs) ys := List.foldl_append ..

theorem paintAll_untouched (h : ∀ p ∈ ops, i ∉ R p.1) : paintAll R f ops i = f i := by
  induction ops generalizing f with
  | nil => rfl
  | cons p ops ih =>
    rw [paintAll_cons, ih fun q hq => h q (List.mem_cons_of_mem _ hq), paint_notMem (h p (by simp))]

theorem exists_first (h : ∃ p ∈ ops, i ∈ R p.1) :
    ∃ pre b v post, ops = pre ++ (b, v) :: post ∧ (∀ p ∈ pre, i ∉ R p.1) ∧ i ∈ R b := by
  induction ops with
  | nil => simp at h
  | cons p ops ih =>
    by_cases hp : i ∈ R p.1
    · exact ⟨[], p.1, p.2, ops, rfl, by simp, hp⟩
    · obtain ⟨q, hq, hiq⟩ := h
      rcases List.mem_cons.mp hq with rfl | hq
      · exact absurd hiq hp
      · obtain ⟨pre, b, v, post, rfl, hpre, hb⟩ := ih ⟨q, hq, hiq⟩
        refine ⟨p :: pre, b, v, post, rfl, ?_, hb⟩
        intro r hr
        rcases List.mem_cons.mp hr with rfl | hr
        · exact hp
        · exact hpre r hr

theorem exists_last (h : ∃ v, (b, v) ∈ ops) :
    ∃ pre v post, ops = pre ++ (b, v) :: post ∧ ∀ p ∈ post, p.1 ≠ b := by
  induction ops with
  | nil => simp at h
  | cons p ops ih =>
    by_cases hlater : ∃ v, (b, v) ∈ ops
    · obtain ⟨pre, v, post, rfl, hpost⟩ := ih hlater
      exact ⟨p :: pre, v, post, rfl, hpost⟩
    · obtain ⟨v, hv⟩ := h
      rcases List.mem_cons.mp hv with rfl | hv
      · exact ⟨[], v, ops, rfl, fun q hq he => hlater ⟨q.2, by rw [← he]; exact hq⟩⟩
      · exact absurd ⟨v, hv⟩ hlater

/-! ## Marks that look like writes to the blocks -/

/-- From the bitmap `f`: a marked block shows its last mark, and no mark changes a slot of another block. -/
structure Agrees (R C : β → Set ι) (B : Set β) (f : ι → Bool) (ops : List (β × Bool)) : Prop where
  shown : ∀ pre b v post, ops = pre ++ (b, v) :: post → (∀ p ∈ post, p.1 ≠ b) →
    ∀ i ∈ C b, paintAll R f ops i = v
  others : ∀ pre b v post, ops = pre ++ (b, v) :: post → ∀ b' ∈ B, b' ≠ b → ∀ i ∈ C b',
    paintAll R f (pre ++ [(b, v)]) i = paintAll R f pre i

/-- The region of the block is all of the block, and no slot of another one. -/
structure Clean (R C : β → Set ι) (B : Set β) (b : β) : Prop where
  covers : C b ⊆ R b
  apart : ∀ b' ∈ B, b' ≠ b → ∀ i ∈ C b', i ∉ R b

theorem agrees_of_clean (hops : ∀ p ∈ ops, p.1 ∈ B) (hclean : ∀ p ∈ ops, Clean R C B p.1) (f : ι → Bool) :
    Agrees R C B f ops := by
  constructor
  · rintro pre b v post rfl hpost i hi
    have hb := hclean (b, v) (by simp)
    rw [paintAll_append, paintAll_cons, paintAll_untouched, paint_mem (hb.covers hi)]
    -- The later marks are of other blocks.
    intro p hp
    have hmem : p ∈ pre ++ (b, v) :: post := by simp [hp]
    exact (hclean p hmem).apart b (hops (b, v) (by simp)) (hpost p hp).symm i hi
  · rintro pre b v post rfl b' hb' hne i hi
    have hb := hclean (b, v) (by simp)
    rw [paintAll_append, paintAll_cons, paintAll_nil, paint_notMem (hb.apart b' hb' hne i hi)]

/-- A mark that reaches into another block is seen when it is the first one there and the bitmap
holds the other value. -/
theorem apart_of_agrees (hsub : ∀ b ∈ B, R b ⊆ C b) (hops : ∀ p ∈ ops, p.1 ∈ B)
    (h : ∀ v, Agrees R C B (fun _ => v) ops) :
    ∀ p ∈ ops, ∀ b' ∈ B, b' ≠ p.1 → ∀ i ∈ C b', i ∉ R p.1 := by
  intro p hp b' hb' hne i hi hip
  obtain ⟨pre, c, v, post, rfl, hpre, hic⟩ := exists_first ⟨p, hp, hip⟩
  have hc : c ∈ B := hops (c, v) (by simp)
  obtain ⟨d, hd, hdc, hid⟩ : ∃ d ∈ B, d ≠ c ∧ i ∈ C d := by
    by_cases hcb : c = b'
    · exact ⟨p.1, hops p hp, by rw [hcb]; exact hne.symm, hsub p.1 (hops p hp) hip⟩
    · exact ⟨b', hb', Ne.symm hcb, hi⟩
  have hsame := (h (!v)).others pre c v post rfl d hd hdc i hid
  rw [paintAll_append, paintAll_cons, paintAll_nil, paint_mem hic, paintAll_untouched hpre] at hsame
  exact absurd hsame (by simp)

theorem covers_of_agrees (hops : ∀ p ∈ ops, p.1 ∈ B)
    (hapart : ∀ p ∈ ops, ∀ b' ∈ B, b' ≠ p.1 → ∀ i ∈ C b', i ∉ R p.1)
    (h : ∀ v, Agrees R C B (fun _ => v) ops) : ∀ p ∈ ops, C p.1 ⊆ R p.1 := by
  rintro ⟨b, w⟩ hp i hi
  by_contra hmiss
  obtain ⟨pre, v, post, rfl, hpost⟩ := exists_last ⟨w, hp⟩
  have hshown := (h (!v)).shown pre b v post rfl hpost i hi
  -- No mark at all touches the slot.
  rw [paintAll_untouched] at hshown
  · exact absurd hshown (by cases v <;> decide)
  · intro q hq
    by_cases hqb : q.1 = b
    · rw [hqb]; exact hmiss
    · exact hapart q hq b (hops (b, v) (by simp)) (Ne.symm hqb) i hi

/-- Starts with all slots alike are enough to tell. -/
theorem agrees_iff_clean (hsub : ∀ b ∈ B, R b ⊆ C b) (hops : ∀ p ∈ ops, p.1 ∈ B) :
    (∀ v, Agrees R C B (fun _ => v) ops) ↔ ∀ p ∈ ops, Clean R C B p.1 := by
  constructor
  · intro h p hp
    have hapart := apart_of_agrees hsub hops h
    exact ⟨covers_of_agrees hops hapart h p hp, hapart p hp⟩
  · intro h v
    exact agrees_of_clean hops h _

/-! ## Free blocks -/

open scoped Classical in
/-- The bitmap that shows exactly the blocks of `F`. -/
noncomputable def shows (C : β → Set ι) (F : Set β) : ι → Bool := fun i => decide (∃ b ∈ F, i ∈ C b)

theorem shows_iff : shows C F i = true ↔ ∃ b ∈ F, i ∈ C b := by simp [shows]

theorem paint_true_shows : paint (C b) true (shows C F) = shows C (insert b F) := by
  funext i
  rw [Bool.eq_iff_iff, shows_iff]
  by_cases hi : i ∈ C b
  · rw [paint_mem hi]
    simp [hi]
  · rw [paint_notMem hi, shows_iff]
    simp [hi]

theorem paint_false_shows (hC : ∀ b' ∈ F, b' ≠ b → ∀ i ∈ C b', i ∉ C b) :
    paint (C b) false (shows C F) = shows C (F \ {b}) := by
  funext i
  rw [Bool.eq_iff_iff, shows_iff]
  by_cases hi : i ∈ C b
  · rw [paint_mem hi]
    simp only [Bool.false_eq_true, false_iff, not_exists, not_and]
    rintro c ⟨hc, hcb⟩ hic
    exact hC c hc hcb i hic hi
  · rw [paint_notMem hi, shows_iff]
    constructor
    · rintro ⟨c, hc, hic⟩
      refine ⟨c, ⟨hc, ?_⟩, hic⟩
      rintro rfl
      exact hi hic
    · rintro ⟨c, ⟨hc, -⟩, hic⟩
      exact ⟨c, hc, hic⟩

end Marks
