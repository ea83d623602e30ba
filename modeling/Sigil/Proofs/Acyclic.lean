import Mathlib.Data.Finset.Card
import Mathlib.Logic.Relation

namespace Sigil

open Relation (TransGen ReflTransGen)

def Acyclic {α : Type} (E : α → α → Prop) : Prop := ∀ x, ¬ TransGen E x x

namespace Acyclic

variable {α : Type} {E E' : α → α → Prop}

theorem mono (h : Acyclic E) (hsub : ∀ x y, E' x y → E x y) : Acyclic E' :=
  fun x hx => h x (TransGen.mono hsub _ _ hx)

theorem swap (h : Acyclic E) : Acyclic (Function.swap E) :=
  fun x hx => h x (Relation.transGen_swap.1 hx)

theorem not_self (h : Acyclic E) (x : α) : ¬ E x x := fun hx => h x (TransGen.single hx)

/-- A path over old edges and a new one uses the new one at most once. -/
theorem path_of_new_edge {s t : α} (hE : ∀ x y, E' x y → E x y ∨ x = s ∧ y = t)
    (hts : ¬ ReflTransGen E t s) {x y : α} (h : ReflTransGen E' x y) :
    ReflTransGen E x y ∨ ReflTransGen E x s ∧ ReflTransGen E t y := by
  induction h with
  | refl => exact Or.inl ReflTransGen.refl
  | tail _ hyz ih =>
    rcases hE _ _ hyz with hold | ⟨rfl, rfl⟩
    · exact ih.imp (·.tail hold) (And.imp_right (·.tail hold))
    · rcases ih with hxy | ⟨-, hty⟩
      · exact Or.inr ⟨hxy, ReflTransGen.refl⟩
      · exact absurd hty hts

/-- A new edge closes no cycle if its target does not reach its source. -/
theorem of_new_edge (h : Acyclic E) {s t : α} (hE : ∀ x y, E' x y → E x y ∨ x = s ∧ y = t)
    (hts : ¬ ReflTransGen E t s) : Acyclic E' := by
  intro x hx
  obtain ⟨y, hxy, hyx⟩ := TransGen.head'_iff.1 hx
  rcases hE x y hxy with hold | ⟨rfl, rfl⟩
  · rcases path_of_new_edge hE hts hyx with hback | ⟨hys, htx⟩
    · exact h x (TransGen.head' hold hback)
    · exact hts (htx.trans (ReflTransGen.head hold hys))
  · rcases path_of_new_edge hE hts hyx with hback | ⟨hback, -⟩
    · exact hts hback
    · exact hts hback

/-- New edges close no cycle if they start where no edge ends. -/
theorem of_new_source (h : Acyclic E) {s : α} (hE : ∀ x y, E' x y → E x y ∨ x = s)
    (hs : ∀ x, ¬ E' x s) : Acyclic E' := by
  have hpath : ∀ x y, TransGen E' x y → TransGen E x y ∨ x = s := by
    intro x y hxy
    induction hxy with
    | single hxy => exact (hE _ _ hxy).imp_left TransGen.single
    | tail hxy hyz ih =>
      rcases hE _ _ hyz with hold | rfl
      · exact ih.imp_left (·.tail hold)
      · obtain ⟨w, -, hw⟩ := TransGen.tail'_iff.1 hxy
        exact absurd hw (hs w)
  intro x hx
  rcases hpath x x hx with hcycle | rfl
  · exact h x hcycle
  · obtain ⟨w, -, hw⟩ := TransGen.tail'_iff.1 hx
    exact hs w hw

/-- What holds one step up whenever it holds of all successors holds with as much fuel as there are
places. -/
theorem fuel_induction (h : Acyclic E) (index : α → Nat) (hindex : Function.Injective index)
    {N : Nat} (hE : ∀ x y, E x y → index y < N) {P : Nat → α → Prop}
    (step : ∀ fuel x, (∀ y, E x y → P fuel y) → P (fuel + 1) x) {x : α} (hx : index x < N) :
    P N x := by
  classical
  -- the places on the path so far are different from all that follow
  suffices hpath : ∀ fuel x (path : Finset Nat), index x < N → path ⊆ Finset.range N →
      path.card + fuel = N → (∀ i ∈ path, ∃ y, index y = i ∧ TransGen E y x) → P fuel x from
    hpath N x ∅ hx (Finset.empty_subset _) (by simp) (by simp)
  intro fuel
  induction fuel with
  | zero =>
    intro x path hx hpath hcard hreach
    -- all places are used up, so the path has come back to `x`
    have hfull : path = Finset.range N := Finset.eq_of_subset_of_card_le hpath (by simp; omega)
    obtain ⟨y, hyx, hreach⟩ := hreach (index x) (hfull ▸ Finset.mem_range.2 hx)
    exact absurd (hindex hyx ▸ hreach) (h x)
  | succ fuel ih =>
    intro x path hx hpath hcard hreach
    apply step fuel x
    intro y hxy
    apply ih y (insert (index x) path) (hE x y hxy)
    · exact Finset.insert_subset (Finset.mem_range.2 hx) hpath
    · have hfresh : index x ∉ path := by
        intro hmem
        obtain ⟨z, hzx, hreach⟩ := hreach _ hmem
        exact h x (hindex hzx ▸ hreach)
      rw [Finset.card_insert_of_notMem hfresh]
      omega
    · intro i hi
      rcases Finset.mem_insert.1 hi with rfl | hi
      · exact ⟨x, rfl, TransGen.single hxy⟩
      · obtain ⟨z, hz, hreach⟩ := hreach i hi
        exact ⟨z, hz, hreach.tail hxy⟩

end Acyclic

end Sigil
