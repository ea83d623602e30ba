import Mathlib.Data.Set.Card
import Sigil.Proofs.Registry.Actions

namespace Sigil

theorem FileType.nodup_slots (t : FileType) : (t.references.map (·.1)).Nodup := by
  unfold references
  cases t.namePattern <;> cases t.contentPattern <;> simp

namespace Registry

variable {config : Config} {r : Registry} {held : PatternId → Nat} {id : FileTypeId} {slot : Slot}
  {n : PatternId}

def users (r : Registry) (n : PatternId) : Set (FileTypeId × Slot) :=
  {user | ∃ t, r.get? user.1 = some t ∧ t.pattern? user.2 = some n}

def slots (r : Registry) : List ((FileTypeId × Slot) × PatternId) :=
  r.types.flatMap fun entry => entry.2.references.map fun ref => ((entry.1, ref.1), ref.2)

theorem map_slots (r : Registry) : r.slots.map (·.2) = r.references.map (·.2) := by
  rw [slots, references, List.map_flatMap, List.map_flatMap]
  simp [Function.comp_def]

theorem mem_slots (hnodup : (r.types.map (·.1)).Nodup) :
    ((id, slot), n) ∈ r.slots ↔ (id, slot) ∈ r.users n := by
  constructor
  · intro hmem
    obtain ⟨⟨i, t⟩, hentry, hslot⟩ := List.mem_flatMap.1 hmem
    obtain ⟨⟨s, m⟩, href, heq⟩ := List.mem_map.1 hslot
    obtain ⟨⟨rfl, rfl⟩, rfl⟩ := heq
    exact ⟨t, (get?_eq_some_iff hnodup).2 hentry, FileType.mem_references.1 href⟩
  · rintro ⟨t, hget, hslot⟩
    refine List.mem_flatMap.2 ⟨(id, t), (get?_eq_some_iff hnodup).1 hget, ?_⟩
    exact List.mem_map.2 ⟨(slot, n), FileType.mem_references.2 hslot, rfl⟩

/-- Each slot is listed once. -/
theorem nodup_slots (hnodup : (r.types.map (·.1)).Nodup) : (r.slots.map (·.1)).Nodup := by
  rw [slots, List.map_flatMap, List.nodup_flatMap]
  constructor
  · rintro ⟨i, t⟩ -
    have hmap := t.nodup_slots.map (f := fun s => (i, s)) fun _ _ h => (Prod.mk.inj h).2
    simpa [Function.comp_def] using hmap
  · -- slots of different types differ in the identifier of the type
    refine (List.pairwise_map.1 hnodup).imp fun hne => ?_
    intro user hleft hright
    simp only [List.map_map, List.mem_map, Function.comp_apply] at hleft hright
    obtain ⟨_, -, rfl⟩ := hleft
    obtain ⟨_, -, heq⟩ := hright
    exact hne (Prod.mk.inj heq).1.symm

theorem encard_users (hnodup : (r.types.map (·.1)).Nodup) (n : PatternId) :
    (r.users n).encard = (r.references.map (·.2)).count n := by
  have husers : r.users n = (((r.slots.filter (·.2 = n)).map (·.1)).toFinset : Set
      (FileTypeId × Slot)) := by
    ext ⟨id, slot⟩
    rw [← mem_slots hnodup]
    simp
  have hlisted : ((r.slots.filter (·.2 = n)).map (·.1)).Nodup :=
    (nodup_slots hnodup).sublist (List.filter_sublist.map _)
  rw [husers, Set.encard_coe_eq_coe_finsetCard, List.toFinset_card_of_nodup hlisted,
    List.length_map, ← map_slots, List.count_eq_length_filter, List.filter_map, List.length_map]
  simp [Function.comp_def, beq_eq_decide]

/-- In every registry with a history of fair clients the holders of a pattern are the slots that
refer to it and what clients hold of it; what slots refer to is alive; and neither removing a type
nor canonicalization fails. -/
theorem Reached.root_accounting (h : Reached config r held) :
    (∀ n, (r.pool.roots n : ℕ∞) = (r.users n).encard + held n) ∧
      (∀ id t slot n, r.get? id = some t → t.pattern? slot = some n → r.pool.contains n = true) ∧
      (∀ id, ∃ removed s, unregister id r = .ok removed s) ∧
      ∃ changed s, canonicalizeAll r = .ok changed s := by
  have hsound := h.sound
  refine ⟨fun n => ?_, ?_, fun id => ?_, ?_⟩
  · rw [encard_users hsound.nodup, hsound.holds.roots]
    push_cast
    rfl
  · intro id t slot n hget hslot
    exact hsound.contains ((get?_eq_some_iff hsound.nodup).1 hget) hslot
  · obtain ⟨removed, s, hrun, -⟩ := hsound.succeeds_unregister id
    exact ⟨removed, s, hrun⟩
  · obtain ⟨changed, s, hrun, -⟩ := hsound.succeeds_canonicalizeAll
    exact ⟨changed, s, hrun⟩

/-- Two types share a context, and a client holds it too. -/
theorem root_accounting_shared_context :
    let r := ([.edit (.lit [97]), .register { name := "x", contentPattern := some ⟨0⟩ },
      .register { name := "y", contentPattern := some ⟨0⟩ }, .edit (.retain ⟨1⟩)] : List
        Action).foldl
        (fun r a => a.apply r) (ofConfig {})
    r.pool.roots ⟨1⟩ = 3 ∧ (r.users ⟨1⟩).encard = 2 ∧ ∃ removed s, unregister ⟨0⟩ r =
      .ok removed s := by
  intro r
  obtain ⟨held, hheld, hreached⟩ : ∃ held, held ⟨1⟩ = 1 ∧ Reached {} r held := by
    refine ⟨_, ?_, (((ReachedFrom.start.step (.edit (.lit [97])) trivial).step
      (.register { name := "x", contentPattern := some ⟨0⟩ }) trivial).step
        (.register { name := "y", contentPattern := some ⟨0⟩ }) trivial).step
          (.edit (.retain ⟨1⟩)) trivial⟩
    decide +kernel
  obtain ⟨hroots, -, hunregister, -⟩ := hreached.root_accounting
  have hthree : r.pool.roots ⟨1⟩ = 3 := by decide +kernel
  refine ⟨hthree, ?_, hunregister ⟨0⟩⟩
  have hsum := hroots ⟨1⟩
  rw [hthree, hheld] at hsum
  exact ENat.add_left_injective_of_ne_top (ENat.natCast_ne_top 1) hsum.symm

end Registry

end Sigil
