import Sigil.Proofs.Registry.Registration

namespace Sigil

namespace Pool

variable {p q r : Pool} {n : PatternId}

structure Sustains (p q : Pool) : Prop extends Resembles p q where
  wellFormed : q.WellFormed
  contains : ∀ n, p.contains n = true → q.contains n = true

namespace Sustains

theorem refl (h : p.WellFormed) : p.Sustains p where
  toResembles := Resembles.refl p
  wellFormed := h
  contains _ hn := hn

theorem trans (h : p.Sustains q) (h' : q.Sustains r) : p.Sustains r where
  toResembles := h.toResembles.trans h'.toResembles fun n hn _ => h.contains n hn
  wellFormed := h'.wellFormed
  contains n hn := h'.contains n (h.contains n hn)

theorem meaning_eq (h : p.Sustains q) (hn : p.contains n = true) : q.meaning n = p.meaning n :=
  h.toResembles.meaning n hn (h.contains n hn)

end Sustains

end Pool

/-! ## Adopting patterns -/

section Adopting

open Pool

variable {p : Pool} {id : PatternId}

/-- A context means what is in it. -/
theorem Pool.WellFormed.meaning_ctx (h : p.WellFormed) {c : PatternId} {d : Domain}
    (hc : p.kind? c = some (.ctx d id)) : p.meaning c = p.meaning id := h.meaning_eq hc

theorem Edit.ctx_meaning (hp : p.WellFormed) (hid : p.contains id = true) (d : Domain) :
    Succeeds (Edit.ctx d id) p fun c q => p.Sustains q ∧ q.contains c = true ∧
      q.meaning c = p.meaning id := by
  obtain ⟨-, hrun⟩ | ⟨-, ⟨c, hc, hrun⟩ | ⟨-, hrun⟩⟩ := Edit.ctx_cases id hp hid d
  · exact Succeeds.of_eq hrun ⟨Sustains.refl hp, hid, rfl⟩
  · exact Succeeds.of_eq hrun ⟨Sustains.refl hp, kind?_isSome_iff.1 ⟨_, hc⟩, hp.meaning_ctx hc⟩
  · have hsubs : ∀ s ∈ (Kind.ctx d id).subs, p.contains s = true :=
      fun s hs => by rwa [List.mem_singleton.1 hs]
    have hextends : p.Extends (p.add (.ctx d id)).2 := extends_add p _ fun _ => rfl
    have hq : (p.add (.ctx d id)).2.WellFormed := hp.add trivial hsubs
    have hkind : (p.add (.ctx d id)).2.kind? p.fresh = some (.ctx d id) := by
      rw [kind?_add, if_pos rfl]
    refine Succeeds.of_eq hrun ⟨⟨hextends.resembles, hq, fun _ hn => hextends.contains hn⟩,
      (contains_add p.fresh).2 (Or.inl rfl), ?_⟩
    rw [hq.meaning_ctx hkind, hextends.meaning hid]

theorem Edit.retain_sustains (hp : p.WellFormed) (hid : p.contains id = true) :
    Succeeds (Edit.retain id) p fun _ q => p.Sustains q := by
  have hplace : KeepsPlace fun n => { n with roots := n.roots + 1 } :=
    ⟨fun _ => rfl, fun _ => rfl, fun _ => rfl, fun _ => rfl, fun _ => rfl⟩
  obtain ⟨node, hnode⟩ := Option.isSome_iff_exists.1 hid
  refine Succeeds.of_eq (Edit.node_bind_eq hnode _) ⟨resembles_modify hplace (fun _ => rfl) p id,
    hp.modify hplace id, fun n hn => ?_⟩
  rwa [contains_congr (kind?_modify hplace.kind)]

/-- What a slot adopts has the meaning of what it is given. -/
theorem Edit.adopt_meaning (hp : p.WellFormed) (hid : p.contains id = true) (slot : Slot) :
    Succeeds (Registry.adopt slot id) p fun c q => p.Sustains q ∧ q.contains c = true ∧
      q.meaning c = p.meaning id := by
  have hretain : ∀ c q, (p.Sustains q ∧ q.contains c = true ∧ q.meaning c = p.meaning id) →
      Succeeds (do retain c; return c : Edit PatternId) q fun c r =>
        p.Sustains r ∧ r.contains c = true ∧ r.meaning c = p.meaning id := by
    rintro c q ⟨hq, hc, hmeaning⟩
    refine (Edit.retain_sustains hq.wellFormed hc).bind ?_
    rintro _ r hr
    exact Succeeds.pure ⟨hq.trans hr, hr.contains c hc, (hr.meaning_eq hc).trans hmeaning⟩
  cases slot with
  | content => exact (Edit.ctx_meaning hp hid .fileContents).bind hretain
  | name =>
    refine Succeeds.bind ((Edit.succeeds_node hid).bind ?_) hretain
    rintro node q ⟨rfl, -⟩
    split
    case h_1 d s hkind =>
      split
      case isTrue => exact Succeeds.pure ⟨Sustains.refl hp, hid, rfl⟩
      case isFalse => exact Edit.ctx_meaning hp hid .fileName
    case h_2 => exact Edit.ctx_meaning hp hid .fileName

end Adopting

namespace Registry

variable {r : Registry} {t : FileType}

theorem mapM_adopt_meaning (hp : r.pool.WellFormed) (slot : Slot) {o : Option PatternId}
    (ho : ∀ id ∈ o, r.pool.contains id = true) :
    Succeeds (o.mapM fun id => onPool (adopt slot id)) r fun o' s =>
      s = { r with pool := s.pool } ∧ r.pool.Sustains s.pool ∧
        ∀ n, o = some n → ∃ c, o' = some c ∧ s.pool.contains c = true ∧ s.pool.meaning c =
          r.pool.meaning n := by
  cases o with
  | none => exact Succeeds.pure ⟨rfl, Pool.Sustains.refl hp, fun _ hn => nomatch hn⟩
  | some id =>
    rw [Option.mapM_some, map_eq_pure_bind]
    refine (succeeds_onPool (Edit.adopt_meaning hp (ho id rfl) slot)).bind ?_
    rintro c s ⟨hs, hsustains, hc⟩
    refine Succeeds.pure ⟨hs, hsustains, ?_⟩
    rintro _ ⟨rfl⟩
    exact ⟨c, rfl, hc⟩

/-- A type that is registered comes last, and asks for contents of the meaning that it asked for
when it was given. -/
theorem register_meaning (hp : r.pool.WellFormed)
    (ht : ∀ n ∈ t.patterns, r.pool.contains n = true) :
    Succeeds (register t) r fun _ s => r.pool.Sustains s.pool ∧ s.config = r.config ∧
      s.nextId = r.nextId + 1 ∧
      ∃ u, s.types = r.types ++ [(⟨r.nextId⟩, u)] ∧ u.name = t.name ∧ u.policy = t.policy ∧
        ∀ n, t.contentPattern = some n →
          ∃ c, u.contentPattern = some c ∧ s.pool.contains c = true ∧
            s.pool.meaning c = r.pool.meaning n := by
  refine (succeeds_nodes t.patterns ht).bind ?_
  rintro _ r rfl
  refine (mapM_adopt_meaning hp .name (o := t.namePattern) ?_).bind ?_
  · exact fun n hn => ht n (List.mem_append_left _ (Option.mem_toList.2 hn))
  rintro name s ⟨hs, hsustains, -⟩
  have hcontent : ∀ n ∈ t.contentPattern, r.pool.contains n = true := fun n hn =>
    ht n (List.mem_append_right _ (Option.mem_toList.2 hn))
  refine (mapM_adopt_meaning hsustains.wellFormed .content fun n hn =>
    hsustains.contains n (hcontent n hn)).bind ?_
  rintro content u ⟨hu, hsustains', hadopted⟩
  rw [hs] at hu
  refine Succeeds.of_eq rfl ⟨hsustains.trans hsustains', by rw [hu], by rw [hu],
    { t with namePattern := name, contentPattern := content }, by rw [hu], rfl, rfl, fun n hn => ?_⟩
  obtain ⟨c, hc, hlive, hmeaning⟩ := hadopted n hn
  exact ⟨c, hc, hlive, hmeaning.trans (hsustains.meaning_eq (hcontent n hn))⟩

end Registry

end Sigil
