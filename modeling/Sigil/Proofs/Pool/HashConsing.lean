import Sigil.Proofs.Pool.Equality

namespace Sigil.Pool

variable {p : Pool} {id m n : PatternId}

namespace WellFormed

/-- A canonical pattern has its entry, and there is no other one of its shape. -/
theorem filter_representatives (h : p.WellFormed) (hid : p.isCanonical id = true) :
    p.representatives.filter (·.2 = id) = [((p.summary id).shape, id)] := by
  have hentry : ((p.summary id).shape, id) ∈ p.representatives := (h.registered _ id).2 ⟨hid, rfl⟩
  have hnodup : p.representatives.Nodup := h.distinct.of_map _
  have hsame : p.representatives.filter (·.2 = id) = p.representatives.filter
      (· == ((p.summary id).shape, id)) := by
    apply List.filter_congr
    rintro ⟨shape, n⟩ hn
    rw [Bool.eq_iff_iff, decide_eq_true_iff, beq_iff_eq, Prod.mk.injEq, iff_and_self]
    rintro rfl
    exact ((h.registered shape n).1 hn).2
  rw [hsame, List.filter_beq, List.count_eq_one_of_mem hnodup hentry, List.replicate_one]

theorem isCanonical_iff (h : p.WellFormed) (id : PatternId) :
    p.isCanonical id = true ↔
      ∃ shape, p.digest id = some shape ∧ p.representatives.filter (·.2 = id) = [(shape, id)] := by
  constructor
  · intro hid
    exact ⟨_, digest_eq_some (contains_of_isCanonical hid), h.filter_representatives hid⟩
  · rintro ⟨shape, -, hfilter⟩
    have hentry : (shape, id) ∈ p.representatives.filter (·.2 = id) := by
      rw [hfilter]
      exact List.mem_singleton_self _
    exact ((h.registered shape id).1 (List.mem_of_mem_filter hentry)).1

theorem eq_of_kind?_eq (h : p.WellFormed) (hm : p.isCanonical m = true)
    (hn : p.isCanonical n = true) (hkind : p.kind? m = p.kind? n) : m = n := by
  obtain ⟨k, hk⟩ := kind?_isSome_iff.2 (contains_of_isCanonical hm)
  apply h.eq_of_shape_eq hm hn
  rw [h.settled m k hk, h.settled n k (hkind ▸ hk)]

theorem structurallyEq_iff (h : p.WellFormed) (hm : p.isCanonical m = true)
    (hn : p.isCanonical n = true) : p.structurallyEq m n = true ↔ m = n := by
  rw [h.structurallyEq_iff_shape (contains_of_isCanonical hm) (contains_of_isCanonical hn)]
  exact ⟨h.eq_of_shape_eq hm hn, fun hmn => by rw [hmn]⟩

end WellFormed

/-- In every pool with a history, a pattern is canonical if and only if the table of representatives
holds it exactly once, under the shape that it has; all that the table holds is live. Canonical
patterns embed canonical ones, no two of them are of one kind, and no two of one structure. Every
live pattern can be made to have one. -/
theorem run_hash_consed (cs : List Command) :
    let p := run cs
    (∀ id, p.isCanonical id = true ↔
        ∃ shape, p.digest id = some shape ∧ p.representatives.filter (·.2 = id) = [(shape, id)]) ∧
      (∀ entry ∈ p.representatives, p.contains entry.2 = true) ∧
      (∀ m n, p.Embeds m n → p.isCanonical m = true → p.isCanonical n = true) ∧
      (∀ m n, p.isCanonical m = true → p.isCanonical n = true → p.kind? m = p.kind? n → m = n) ∧
      (∀ m n, p.isCanonical m = true → p.isCanonical n = true →
        (p.structurallyEq m n = true ↔ m = n)) ∧
      ∀ id, p.contains id = true → ∃ c q, Edit.canonicalize id p = .ok c q ∧
        q.isCanonical c = true := by
  intro p
  have hp : p.WellFormed := wellFormed_run cs
  refine ⟨hp.isCanonical_iff, ?_, hp.canonical_sub, fun m n => hp.eq_of_kind?_eq, fun m n =>
    hp.structurallyEq_iff, ?_⟩
  · rintro ⟨shape, id⟩ hentry
    exact contains_of_isCanonical ((hp.registered shape id).1 hentry).1
  · intro id hid
    obtain ⟨c, q, hrun, -, hcanonical, -⟩ := Edit.canonicalize_spec hp hid
    exact ⟨c, q, hrun, hcanonical⟩

end Sigil.Pool
