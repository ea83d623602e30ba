import Sigil.Proofs.Registry.Holders

namespace Sigil

namespace FileType

variable {t : FileType} {slot : Slot} {n : PatternId}

def references (t : FileType) : List (Slot × PatternId) :=
  t.namePattern.toList.map (Slot.name, ·) ++ t.contentPattern.toList.map (Slot.content, ·)

theorem mem_references : (slot, n) ∈ t.references ↔ t.pattern? slot = some n := by
  cases slot <;> simp [references, pattern?]

theorem map_references (t : FileType) : t.references.map (·.2) = t.patterns := by
  simp [references, patterns, Function.comp_def]

/-- A slot of a type refers to one pattern, beside those of the other slot. -/
theorem references_perm (h : t.pattern? slot = some n) :
    ∃ rest, t.references.Perm ((slot, n) :: rest) ∧
      ∀ c, (t.setPattern c slot).references.Perm ((slot, c) :: rest) := by
  cases slot with
  | name =>
    change t.namePattern = some n at h
    refine ⟨t.contentPattern.toList.map (Slot.content, ·), ?_, fun c => List.Perm.refl _⟩
    rw [references, h]
    exact List.Perm.refl _
  | content =>
    change t.contentPattern = some n at h
    refine ⟨t.namePattern.toList.map (Slot.name, ·), ?_, fun c => List.perm_append_comm⟩
    rw [references, h]
    exact List.perm_append_comm

end FileType

namespace Registry

variable {α : Type} {r s : Registry} {id : FileTypeId} {t : FileType} {slot : Slot} {n : PatternId}
  {held : PatternId → Nat} {refs : List (Slot × PatternId)}

def references (r : Registry) : List (Slot × PatternId) := r.types.flatMap (·.2.references)

/-- The patterns of the types are held by their slots, and types have identifiers of their own, all
given out. -/
structure Sound (r : Registry) (held : PatternId → Nat) : Prop where
  holds : r.pool.Holds r.references held
  nodup : (r.types.map (·.1)).Nodup
  given : ∀ id ∈ r.types.map (·.1), id.index < r.nextId

theorem succeeds_onPool {e : Edit α} {P : α → Pool → Prop} (h : Succeeds e r.pool P) :
    Succeeds (onPool e) r fun a s => s = { r with pool := s.pool } ∧ P a s.pool := by
  obtain ⟨a, pool, hrun, hP⟩ := h
  exact Succeeds.of_eq (by rw [onPool, hrun]) ⟨rfl, hP⟩

/-- A registered type stands between others of other identifiers. -/
theorem exists_split (hnodup : (r.types.map (·.1)).Nodup) (ht : (id, t) ∈ r.types) :
    ∃ before after, r.types = before ++ (id, t) :: after ∧
      ∀ entry ∈ before ++ after, entry.1 ≠ id := by
  obtain ⟨before, after, htypes⟩ := List.append_of_mem ht
  refine ⟨before, after, htypes, fun entry hentry heq => ?_⟩
  rw [htypes, (List.perm_middle.map _).nodup_iff, List.map_cons] at hnodup
  exact (List.nodup_cons.1 hnodup).1 (List.mem_map.2 ⟨entry, hentry, heq⟩)

theorem get?_eq_some_iff (hnodup : (r.types.map (·.1)).Nodup) :
    r.get? id = some t ↔ (id, t) ∈ r.types := by
  constructor
  · intro hget
    obtain ⟨before, after, htypes, -⟩ := List.lookup_eq_some_iff.1 hget
    rw [htypes]
    exact List.mem_append_right _ List.mem_cons_self
  · intro ht
    obtain ⟨before, after, htypes, hother⟩ := exists_split hnodup ht
    refine List.lookup_eq_some_iff.2 ⟨before, after, htypes, fun entry hentry => ?_⟩
    exact bne_iff_ne.2 (hother entry (List.mem_append_left _ hentry)).symm

/-! ## Registering a type -/

theorem succeeds_mapM_adopt (h : r.pool.Holds refs held) (slot : Slot) {o : Option PatternId}
    (ho : ∀ id ∈ o, r.pool.contains id = true) :
    Succeeds (o.mapM fun id => onPool (adopt slot id)) r fun o' s => s = { r with pool := s.pool } ∧
      s.pool.Holds (o'.toList.map (slot, ·) ++ refs) held ∧
        ∀ n, r.pool.contains n = true → s.pool.contains n = true := by
  cases o with
  | none => exact Succeeds.pure ⟨rfl, h, fun _ hn => hn⟩
  | some id =>
    rw [Option.mapM_some, map_eq_pure_bind]
    refine (succeeds_onPool (Edit.succeeds_adopt h (ho id rfl) slot)).bind ?_
    rintro c s ⟨hs, hholds, hlive⟩
    exact Succeeds.pure ⟨hs, hholds, hlive⟩

/-- Whether patterns live is found out without a change. -/
theorem succeeds_nodes (ids : List PatternId) (hids : ∀ id ∈ ids, r.pool.contains id = true) :
    Succeeds (forIn ids PUnit.unit fun id _ => do
      let _ ← onPool (Edit.node id)
      return .yield PUnit.unit : Registering PUnit) r fun _ s => s = r := by
  refine (Succeeds.forIn (I := fun rest _ s => s = r ∧ ∀ id ∈ rest,
    r.pool.contains id = true) ?_ ids
    ⟨rfl, hids⟩).mono fun _ _ hs => hs.1
  rintro id rest _ s ⟨rfl, hrest⟩
  refine (succeeds_onPool (Edit.succeeds_node (hrest id List.mem_cons_self))).bind ?_
  rintro _ u ⟨hu, hpool, -⟩
  rw [hpool] at hu
  exact Succeeds.pure ⟨_, rfl, hu, fun i hi => hrest i (List.mem_cons_of_mem id hi)⟩

theorem fails_nodes {ids : List PatternId} (hids : ∃ id ∈ ids, r.pool.contains id = false) :
    Fails (forIn ids PUnit.unit fun id _ => do
      let _ ← onPool (Edit.node id)
      return .yield PUnit.unit : Registering PUnit) r r := by
  induction ids with
  | nil =>
    obtain ⟨id, hid, -⟩ := hids
    exact absurd hid List.not_mem_nil
  | cons id ids ih =>
    rw [List.forIn_cons]
    cases hlive : r.pool.contains id with
    | false =>
      refine Fails.bind (Fails.bind ⟨.unknownPattern id, ?_⟩ _) _
      rw [Pool.contains, Option.isSome_eq_false_iff, Option.isNone_iff_eq_none] at hlive
      rw [onPool, Edit.node, hlive]
    | true =>
      have hfirst : Succeeds (do
          let _ ← onPool (Edit.node id)
          return .yield PUnit.unit : Registering (ForInStep PUnit)) r fun next s =>
            next = .yield PUnit.unit ∧ s = r := by
        refine (succeeds_onPool (Edit.succeeds_node hlive)).bind ?_
        rintro _ u ⟨hu, hpool, -⟩
        rw [hpool] at hu
        exact Succeeds.pure ⟨rfl, hu⟩
      refine hfirst.bind_fails ?_
      rintro _ _ ⟨rfl, rfl⟩
      obtain ⟨n, hn, hdead⟩ := hids
      apply ih
      rcases List.mem_cons.1 hn with rfl | hn
      · rw [hlive] at hdead
        exact Bool.noConfusion hdead
      · exact ⟨n, hn, hdead⟩

/-- A type of live patterns is registered, under an identifier of its own. -/
theorem Sound.succeeds_register (h : r.Sound held)
    (ht : ∀ n ∈ t.patterns, r.pool.contains n = true) :
    Succeeds (register t) r fun _ s => s.Sound held := by
  refine (succeeds_nodes t.patterns ht).bind ?_
  rintro _ r rfl
  refine (succeeds_mapM_adopt h.holds .name (o := t.namePattern) ?_).bind ?_
  · exact fun n hn => ht n (List.mem_append_left _ (Option.mem_toList.2 hn))
  rintro name s ⟨hs, hholds, hlive⟩
  refine (succeeds_mapM_adopt hholds .content (o := t.contentPattern) ?_).bind ?_
  · exact fun n hn => hlive n (ht n (List.mem_append_right _ (Option.mem_toList.2 hn)))
  rintro content u ⟨hu, hholds', -⟩
  have htypes : u.types = r.types := by rw [hu, hs]
  have hnext : u.nextId = r.nextId := by rw [hu, hs]
  refine Succeeds.of_eq rfl ⟨hholds'.perm ?_, ?_, ?_⟩
  · -- the new type comes last, and its name before its contents
    show List.Perm _ ((u.types ++ [_]).flatMap _)
    rw [htypes, List.flatMap_append, List.flatMap_singleton, ← List.append_assoc]
    exact List.perm_append_comm.trans (List.perm_append_comm.append_left _)
  · show ((u.types ++ [_]).map _).Nodup
    rw [htypes, List.map_append, List.map_singleton, List.nodup_append]
    refine ⟨h.nodup, List.nodup_singleton _, ?_⟩
    rintro id hid _ hnew rfl
    have hlt := h.given id hid
    rw [List.mem_singleton.1 hnew, hnext] at hlt
    exact Nat.lt_irrefl _ hlt
  · intro id hid
    change id ∈ (u.types ++ [_]).map _ at hid
    show id.index < u.nextId + 1
    rw [htypes, List.map_append, List.map_singleton, List.mem_append, List.mem_singleton] at hid
    rw [hnext]
    rcases hid with hold | rfl
    · exact Nat.lt_succ_of_lt (h.given id hold)
    · exact Nat.lt_succ_of_le (Nat.le_of_eq hnext)

/-- A type with a pattern that does not live is refused. -/
theorem fails_register (ht : ∃ n ∈ t.patterns, r.pool.contains n = false) :
    Fails (register t) r r :=
  (fails_nodes ht).bind _

/-! ## Removing a type -/

/-- The slots let go of their patterns one after the other. -/
theorem succeeds_releases (todo : List (Slot × PatternId)) (h : r.pool.Holds (todo ++ refs) held) :
    Succeeds (forIn (todo.map (·.2)) PUnit.unit fun n _ => do
      onPool (Edit.release n)
      return .yield PUnit.unit : Registering PUnit) r fun _ s =>
        s = { r with pool := s.pool } ∧ s.pool.Holds refs held := by
  have hloop := Succeeds.forIn (s := r) (b := PUnit.unit)
    (I := fun rest _ s => s = { r with pool := s.pool } ∧
      ∃ todo, rest = todo.map (·.2) ∧ s.pool.Holds (todo ++ refs) held)
    (g := fun n _ => do
      onPool (Edit.release n)
      return .yield PUnit.unit) ?_ (todo.map (·.2)) ⟨rfl, todo, rfl, h⟩
  · refine hloop.mono ?_
    rintro _ s ⟨hs, todo, htodo, hholds⟩
    rw [List.map_eq_nil_iff.1 htodo.symm] at hholds
    exact ⟨hs, hholds⟩
  · rintro n rest _ s ⟨hs, todo, htodo, hholds⟩
    obtain ⟨⟨slot, m⟩, todo, rfl, rfl, rfl⟩ := List.map_eq_cons_iff.1 htodo.symm
    refine (succeeds_onPool (Edit.succeeds_release hholds)).bind ?_
    rintro _ u ⟨hu, hrest, -⟩
    rw [hs] at hu
    exact Succeeds.pure ⟨_, rfl, hu, todo, rfl, hrest⟩

theorem Sound.succeeds_unregister (h : r.Sound held) (id : FileTypeId) :
    Succeeds (unregister id) r fun _ s => s.Sound held := by
  refine (Succeeds.get (P := fun a s => a = r ∧ s = r) ⟨rfl, rfl⟩).bind ?_
  rintro _ r ⟨rfl, rfl⟩
  cases hget : r.get? id with
  | none => exact Succeeds.pure h
  | some t =>
    obtain ⟨before, after, htypes, hother⟩ :=
      exists_split h.nodup ((get?_eq_some_iff h.nodup).1 hget)
    have hfilter : r.types.filter (·.1 ≠ id) = before ++ after := by
      rw [htypes, List.filter_append, List.filter_cons_of_neg (by simp), ← List.filter_append,
        List.filter_eq_self]
      exact fun entry hentry => decide_eq_true (hother entry hentry)
    have hsublist : (before ++ after).Sublist r.types := by
      rw [← hfilter]
      exact List.filter_sublist
    have hrefs : r.references.Perm
        (t.references ++ (before ++ after).flatMap (·.2.references)) := by
      rw [references, htypes, List.flatMap_append, List.flatMap_cons, List.flatMap_append]
      exact List.perm_append_comm_assoc ..
    refine (Succeeds.modify (P := fun _ s => s = { r with types := before ++ after }) ?_).bind ?_
    · rw [← hfilter]
    rintro _ s rfl
    have hloop := succeeds_releases (r := { r with types := before ++ after }) t.references
      (h.holds.perm hrefs)
    rw [FileType.map_references] at hloop
    refine hloop.bind ?_
    rintro _ s ⟨hs, hholds⟩
    have htypes' : s.types = before ++ after := by rw [hs]
    have hnext : s.nextId = r.nextId := by rw [hs]
    refine Succeeds.pure ⟨?_, ?_, fun i hi => ?_⟩
    · rwa [references, htypes']
    · rw [htypes']
      exact h.nodup.sublist (hsublist.map _)
    · rw [htypes'] at hi
      rw [hnext]
      exact h.given i ((hsublist.map _).subset hi)

end Registry

end Sigil
