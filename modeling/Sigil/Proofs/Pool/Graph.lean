import Sigil.Proofs.Acyclic
import Sigil.Proofs.Pool.Views

namespace Sigil.Pool

open Relation (ReflTransGen)

variable {p q : Pool} {id m n : PatternId} {k : Kind PatternId}

/-- `n` is a sub-pattern of the live pattern `m`. -/
def Embeds (p : Pool) (m n : PatternId) : Prop := ∃ k, p.kind? m = some k ∧ n ∈ k.subs

theorem Embeds.contains (h : p.Embeds m n) : p.contains m = true := by
  obtain ⟨k, hk, -⟩ := h
  exact kind?_isSome_iff.1 ⟨k, hk⟩

theorem embeds_iff (hk : p.kind? m = some k) : p.Embeds m n ↔ n ∈ k.subs := by
  constructor
  · rintro ⟨k', hk', hn⟩
    rw [hk, Option.some.injEq] at hk'
    exact hk' ▸ hn
  · exact fun hn => ⟨k, hk, hn⟩

theorem embeds_congr (h : q.kind? = p.kind?) : q.Embeds = p.Embeds := by
  unfold Embeds
  rw [h]

theorem contains_congr (h : q.kind? = p.kind?) : q.contains = p.contains := by
  funext id
  rw [contains_eq, contains_eq, h]

theorem ids_congr (h : q.kind? = p.kind?) (hsize : q.nodes.size = p.nodes.size) :
    q.ids = p.ids := by
  rw [ids, ids, contains_congr h, hsize]

theorem nodup_ids (p : Pool) : p.ids.Nodup := by
  refine List.Nodup.filter _ (List.nodup_range.map ?_)
  exact fun i j h => congrArg PatternId.index h

/-- Edges and back edges agree, there is no cycle, and the patterns are counted right. -/
structure Linked (p : Pool) : Prop where
  mem_supers : ∀ m n, m ∈ p.supers n ↔ p.Embeds m n
  nodup_supers : ∀ n, (p.supers n).Nodup
  acyclic : Acyclic p.Embeds
  live_eq : p.live = p.ids.length

theorem contains_of_mem_supers (h : m ∈ p.supers n) : p.contains n = true := by
  rw [supers] at h
  rw [contains]
  cases hn : p.get? n with
  | none =>
    rw [hn] at h
    exact absurd h List.not_mem_nil
  | some node => rfl

namespace Linked

theorem contains_sub (h : p.Linked) (hmn : p.Embeds m n) : p.contains n = true :=
  contains_of_mem_supers ((h.mem_supers m n).2 hmn)

theorem congr (h : p.Linked) (hkind : q.kind? = p.kind?) (hsupers : q.supers = p.supers)
    (hlive : q.live = p.live) (hsize : q.nodes.size = p.nodes.size) : q.Linked where
  mem_supers := by rw [hsupers, embeds_congr hkind]; exact h.mem_supers
  nodup_supers := by rw [hsupers]; exact h.nodup_supers
  acyclic := by rw [embeds_congr hkind]; exact h.acyclic
  live_eq := by rw [hlive, ids_congr hkind hsize]; exact h.live_eq

/-- What is under a live pattern is live. -/
theorem contains_of_reaches (h : p.Linked) (hm : p.contains m = true)
    (hmn : ReflTransGen p.Embeds m n) : p.contains n = true := by
  rcases hmn.cases_tail with rfl | ⟨s, -, hsn⟩
  · exact hm
  · exact h.contains_sub hsn

/-- Induction along the edges, with as much fuel as there are identifiers. -/
theorem fuel_induction (h : p.Linked) {P : Nat → PatternId → Prop}
    (step : ∀ fuel m, (∀ n, p.Embeds m n → P fuel n) → P (fuel + 1) m)
    (hid : p.contains id = true) : P p.nodes.size id :=
  h.acyclic.fuel_induction PatternId.index (fun _ _ => congrArg PatternId.mk)
    (fun _ _ hmn => index_lt_of_contains (h.contains_sub hmn)) step (index_lt_of_contains hid)

/-- Induction along the back edges, with as much fuel as there are identifiers. -/
theorem fuel_induction_up (h : p.Linked) {P : Nat → PatternId → Prop}
    (step : ∀ fuel n, (∀ m, p.Embeds m n → P fuel m) → P (fuel + 1) n)
    (hid : p.contains id = true) : P p.nodes.size id :=
  h.acyclic.swap.fuel_induction PatternId.index (fun _ _ => congrArg PatternId.mk)
    (fun _ _ hmn => index_lt_of_contains hmn.contains) step (index_lt_of_contains hid)

/-- Induction along the edges. -/
theorem induction (h : p.Linked) {P : PatternId → Prop}
    (step : ∀ m, (∀ n, p.Embeds m n → P n) → P m) (hid : p.contains id = true) : P id :=
  h.fuel_induction (P := fun _ => P) (fun _ => step) hid

end Linked

/-! ## Walking down -/

def Explored (p : Pool) (seen found : List PatternId) : Prop :=
  seen ⊆ found ∧ ∀ m ∈ found, m ∉ seen → ∀ n, p.Embeds m n → n ∈ found

theorem Explored.refl (seen : List PatternId) : p.Explored seen seen :=
  ⟨List.Subset.refl seen, fun _ hm hnot => absurd hm hnot⟩

theorem Explored.trans {seen found more : List PatternId} (h : p.Explored seen found)
    (h' : p.Explored found more) : p.Explored seen more := by
  refine ⟨List.Subset.trans h.1 h'.1, ?_⟩
  intro m hm hnot n hmn
  by_cases hfound : m ∈ found
  · exact h'.1 (h.2 m hfound hnot n hmn)
  · exact h'.2 m hm hfound n hmn

theorem explored_foldl {visit : List PatternId → PatternId → List PatternId} {subs : List PatternId}
    (h : ∀ s ∈ subs, ∀ seen, p.Explored seen (visit seen s) ∧ s ∈ visit seen s)
    (seen : List PatternId) :
    p.Explored seen (subs.foldl visit seen) ∧ subs ⊆ subs.foldl visit seen := by
  induction subs generalizing seen with
  | nil => exact ⟨Explored.refl seen, List.nil_subset _⟩
  | cons s subs ih =>
    obtain ⟨hfirst, hs⟩ := h s List.mem_cons_self seen
    obtain ⟨hrest, hsubs⟩ := ih (fun t ht => h t (List.mem_cons_of_mem s ht)) (visit seen s)
    exact ⟨hfirst.trans hrest, List.cons_subset.2 ⟨hrest.1 hs, hsubs⟩⟩

theorem Linked.explored_visit (h : p.Linked) (hid : p.contains id = true) :
    ∀ seen, p.Explored seen (p.visit p.nodes.size seen id) ∧ id ∈ p.visit p.nodes.size seen id := by
  refine h.fuel_induction (P := fun fuel id => p.contains id = true → ∀ seen,
    p.Explored seen (p.visit fuel seen id) ∧ id ∈ p.visit fuel seen id) ?_ hid hid
  intro fuel m ih hm seen
  rw [visit]
  split
  case isTrue hmem => exact ⟨Explored.refl seen, hmem⟩
  case isFalse =>
    obtain ⟨node, hnode⟩ := Option.isSome_iff_exists.1 hm
    have hkind : p.kind? m = some node.kind := kind?_of_get? hnode
    rw [hnode]
    have hvisit : ∀ s ∈ node.kind.subs, ∀ seen,
        p.Explored seen (p.visit fuel seen s) ∧ s ∈ p.visit fuel seen s :=
      fun s hs => ih s ⟨_, hkind, hs⟩ (h.contains_sub ⟨_, hkind, hs⟩)
    obtain ⟨hexplored, hsubs⟩ := explored_foldl hvisit (m :: seen)
    refine ⟨⟨fun x hx => hexplored.1 (List.mem_cons_of_mem m hx), ?_⟩,
      hexplored.1 List.mem_cons_self⟩
    intro x hx hnot n hxn
    -- the sub-patterns of `m` were visited one by one; others were explored on the way
    by_cases hxm : x = m
    · rw [hxm, embeds_iff hkind] at hxn
      exact hsubs hxn
    · exact hexplored.2 x hx (by simp [hxm, hnot]) n hxn

/-- The cone of a live pattern holds all that is under it. -/
theorem Linked.mem_cone (h : p.Linked) (hid : p.contains id = true)
    (hn : ReflTransGen p.Embeds id n) : n ∈ p.cone id := by
  obtain ⟨hexplored, hroot⟩ := h.explored_visit hid []
  induction hn with
  | refl => exact hroot
  | tail _ hmn ih => exact hexplored.2 _ ih List.not_mem_nil _ hmn

theorem Linked.not_reaches (h : p.Linked) (hm : p.contains m = true) (hno : p.reaches m n = false) :
    ¬ ReflTransGen p.Embeds m n := by
  intro hmn
  rw [reaches, List.contains_iff_mem.2 (h.mem_cone hm hmn)] at hno
  exact absurd hno Bool.noConfusion

end Sigil.Pool
