import Sigil.Proofs.Pool.Release
import Sigil.Proofs.Registry.Adoption
import Sigil.Proofs.Registry.Order

namespace Sigil

/-! ## Holders that come and go -/

namespace Pool

variable {p q r : Pool} {c : Command} {n id : PatternId} {ids : List PatternId}

theorem Obeys.roots_eq (h : Obeys c p q) (hn : c.holders p n = p.roots n) :
    q.roots n = p.roots n := by
  rw [h.roots, hn]
  split
  case isTrue => rfl
  case isFalse hdead => exact (roots_eq_zero (Bool.not_eq_true _ ▸ hdead)).symm

/-- `q` is well formed, and has the holders of `p` but for one of each pattern in the list. -/
structure Drops (ids : List PatternId) (p q : Pool) : Prop where
  wellFormed : q.WellFormed
  roots : ∀ n, q.roots n + ids.count n = p.roots n

theorem Drops.refl (hp : p.WellFormed) : Drops [] p p := ⟨hp, fun _ => rfl⟩

theorem Drops.cons (h : Drops [id] p q) (h' : Drops ids q r) : Drops (id :: ids) p r where
  wellFormed := h'.wellFormed
  roots n := by
    rw [← h.roots, ← h'.roots, ← List.singleton_append, List.count_append]
    omega

end Pool

namespace Edit

open Pool

variable {p : Pool} {id : PatternId}

/-- A pattern that lives gets one more holder. -/
theorem succeeds_retain_roots (hp : p.WellFormed) (hid : p.contains id = true) :
    Succeeds (retain id) p fun _ q => q.WellFormed ∧ ∀ n, q.roots n = p.roots n + [id].count n := by
  have hobeys := obeys_retain hp id
  obtain ⟨_, q, hrun, -⟩ := retain_sustains hp hid
  rw [after_of_eq_ok hrun] at hobeys
  refine Succeeds.of_eq hrun ⟨hobeys.wellFormed, fun n => ?_⟩
  by_cases hn : n = id
  · rw [hobeys.roots, Command.holders, hn, if_pos hid, if_pos rfl, List.count_singleton_self]
  · rw [hobeys.roots_eq (if_neg hn), List.count_eq_zero_of_not_mem (fun h =>
      hn (List.mem_singleton.1 h)), Nat.add_zero]

theorem fails_release (hfree : p.roots id = 0) : Fails (release id) p p := by
  unfold release
  cases hnode : p.get? id with
  | none => exact Fails.bind ⟨.unknownPattern id, by rw [Edit.node, hnode]⟩ _
  | some node =>
    rw [roots, hnode] at hfree
    refine ⟨.notRetained id, ?_⟩
    rw [node_bind_eq hnode, if_pos (show node.roots = 0 from hfree)]
    rfl

/-- A pattern loses one holder, unless it has none. -/
theorem yields_release (hp : p.WellFormed) (id : PatternId) :
    Yields (release id) p (fun _ q => Drops [id] p q) fun q => q = p ∧ p.roots id = 0 := by
  unfold Yields
  rcases Nat.eq_zero_or_pos (p.roots id) with hfree | hheld
  · obtain ⟨error, hrun⟩ := fails_release hfree
    rw [hrun]
    exact ⟨rfl, hfree⟩
  · have hobeys := obeys_release hp id
    have hrun := release_eq hheld
    rw [after_of_eq_ok hrun] at hobeys
    rw [hrun]
    refine ⟨hobeys.wellFormed, fun n => ?_⟩
    by_cases hn : n = id
    · rw [hobeys.roots, Command.holders, hn, if_pos (contains_of_roots_pos hheld), if_pos rfl,
        List.count_singleton_self, Nat.sub_add_cancel hheld]
    · rw [hobeys.roots_eq (if_neg hn), List.count_eq_zero_of_not_mem (fun h =>
        hn (List.mem_singleton.1 h)), Nat.add_zero]

/-- Only a pattern that does not live has no canonical one. -/
theorem yields_canonicalize (hp : p.WellFormed) (id : PatternId) :
    Yields (canonicalize id) p (fun c q => p.Keeps q ∧ q.contains c = true) fun q => q = p ∧
      p.roots id = 0 := by
  unfold Yields
  cases hid : p.contains id with
  | false =>
    rw [canonicalize_eq_error hid]
    exact ⟨rfl, roots_eq_zero hid⟩
  | true =>
    obtain ⟨c, q, hrun, hrefines, hcanonical, -⟩ := canonicalize_spec hp hid
    rw [hrun]
    exact ⟨hrefines.keeps, contains_of_isCanonical hcanonical⟩

end Edit

namespace Registry

open Pool

variable {r s u : Registry} {id : FileTypeId} {t : FileType} {slot : Slot} {n : PatternId}
  {lost : Option PatternId}

theorem yields_onPool_edit {α : Type} {e : Edit α} {P : α → Pool → Prop} {F : Pool → Prop}
    (h : Yields e r.pool P F) :
    Yields (onPool e) r (fun a s => s = { r with pool := s.pool } ∧ P a s.pool)
      fun s => s = { r with pool := s.pool } ∧ F s.pool := by
  unfold Yields at h ⊢
  rw [onPool]
  cases hrun : e r.pool with
  | ok a q =>
    rw [hrun] at h
    exact ⟨rfl, h⟩
  | error error q =>
    rw [hrun] at h
    exact ⟨rfl, h⟩

/-! ## Removing a type -/

/-- Patterns are released one after the other, up to one without holders. -/
theorem yields_releases (ns : List PatternId) (hp : r.pool.WellFormed) :
    Yields (forIn ns PUnit.unit fun n _ => do
      onPool (Edit.release n)
      return .yield PUnit.unit : Registering PUnit) r
      (fun _ s => s = { r with pool := s.pool } ∧ r.pool.Drops ns s.pool)
      fun s => s = { r with pool := s.pool } ∧ ∃ done n rest, ns = done ++ n :: rest ∧
        r.pool.Drops done s.pool ∧ s.pool.roots n = 0 := by
  induction ns generalizing r with
  | nil => exact ⟨rfl, Drops.refl hp⟩
  | cons n ns ih =>
    rw [List.forIn_cons]
    have hfirst := yields_onPool_edit (Edit.yields_release hp n)
    refine Yields.bind (P := fun next s => next = .yield PUnit.unit ∧
      s = { r with pool := s.pool } ∧
      r.pool.Drops [n] s.pool) ?_ ?_
    · refine (hfirst.mono (fun _ _ h => h) ?_).bind fun _ s hs => Yields.pure ⟨rfl, hs⟩
      rintro s ⟨hs, hpool, hfree⟩
      refine ⟨hs, [], n, ns, rfl, ?_, ?_⟩
      · rw [hpool]
        exact Drops.refl hp
      · rwa [hpool]
    · rintro _ s ⟨rfl, hs, hdrops⟩
      refine (ih hdrops.wellFormed).mono ?_ ?_
      · rintro _ u ⟨hu, hdrops'⟩
        rw [hs] at hu
        exact ⟨hu, hdrops.cons hdrops'⟩
      · rintro u ⟨hu, done, m, rest, hns, hdrops', hfree⟩
        rw [hs] at hu
        exact ⟨hu, n :: done, m, rest, by rw [hns]; rfl, hdrops.cons hdrops', hfree⟩

/-- A type is gone before its patterns are released. -/
theorem yields_unregister_drops (hp : r.pool.WellFormed) (id : FileTypeId) :
    Yields (unregister id) r
      (fun o s => o = r.get? id ∧ r.pool.Drops ((o.map (·.patterns)).getD []) s.pool)
      fun s => ∃ t done n rest, r.get? id = some t ∧ t.patterns = done ++ n :: rest ∧
        s = { r with types := r.types.filter (·.1 ≠ id), pool := s.pool } ∧
          r.pool.Drops done s.pool ∧
          s.pool.roots n = 0 := by
  refine Yields.bind (P := fun a s => a = r ∧ s = r) ⟨rfl, rfl⟩ ?_
  rintro _ r ⟨rfl, rfl⟩
  cases hget : r.get? id with
  | none => exact ⟨rfl, Drops.refl hp⟩
  | some t =>
    refine Yields.bind (Yields.modify (P := fun _ s =>
      s = { r with types := r.types.filter (·.1 ≠ id) }) rfl) ?_
    rintro _ s rfl
    have hreleases := yields_releases (r := { r with types := r.types.filter (·.1 ≠ id) })
      t.patterns hp
    refine (hreleases.mono (fun _ _ hs => hs) ?_).bind fun _ s hs => Yields.pure ⟨rfl, hs.2⟩
    rintro s ⟨hs, done, n, rest, ht, hdrops, hfree⟩
    exact ⟨t, done, n, rest, rfl, ht, hs, hdrops, hfree⟩

/-- Removing a type fails just where a pattern has fewer holders than slots of the type refer to
it. -/
theorem unregister_fails_iff (hp : r.pool.WellFormed) (id : FileTypeId) :
    (∃ s, Fails (unregister id) r s) ↔ ∃ t, r.get? id = some t ∧
      ∃ n, r.pool.roots n < t.patterns.count n := by
  have hyields := yields_unregister_drops hp id
  constructor
  · rintro ⟨s, error, hrun⟩
    obtain ⟨t, done, n, rest, hget, hpatterns, -, hdrops, hfree⟩ := hyields.of_error hrun
    refine ⟨t, hget, n, ?_⟩
    have hroots := hdrops.roots n
    rw [hpatterns, List.count_append, List.count_cons_self]
    omega
  · rintro ⟨t, hget, n, hfew⟩
    cases hrun : unregister id r with
    | error error s => exact ⟨s, error, hrun⟩
    | ok o s =>
      obtain ⟨rfl, hdrops⟩ := hyields.of_ok hrun
      have hroots := hdrops.roots n
      rw [hget, Option.map_some, Option.getD_some] at hroots
      omega

/-! ## Canonicalizing all patterns -/

def uses (r : Registry) (n : PatternId) : Nat := (r.references.map (·.2)).count n

/-- The slot of one type passes to another pattern. -/
theorem Numbered.uses_setPattern (h : r.Numbered) (hget : r.get? id = some t)
    (hslot : t.pattern? slot = some n) (c m : PatternId) :
    let types :=
      r.types.map fun entry => if entry.1 = id then (id, entry.2.setPattern c slot) else entry
    ((types.flatMap (·.2.references)).map (·.2)).count m + [n].count m = r.uses m +
      [c].count m := by
  intro types
  obtain ⟨before, after, htypes, hother⟩ := exists_split h.nodup ((get?_eq_some_iff h.nodup).1 hget)
  obtain ⟨rest, hold, hnew⟩ := FileType.references_perm hslot
  have hcount : ∀ refs : List (Slot × PatternId),
      (((before.flatMap (·.2.references)) ++ (refs ++ after.flatMap (·.2.references))).map
        (·.2)).count m =
        ((before.flatMap (·.2.references)).map (·.2)).count m + (refs.map (·.2)).count m +
          ((after.flatMap (·.2.references)).map (·.2)).count m := by
    intro refs
    rw [List.map_append, List.map_append, List.count_append, List.count_append, Nat.add_assoc]
  have hrefs : types = before ++ (id, t.setPattern c slot) :: after := by
    rw [← map_setPattern hother t c slot, ← htypes]
  rw [hrefs, uses, references, htypes, List.flatMap_append, List.flatMap_append, List.flatMap_cons,
    List.flatMap_cons,
    hcount, hcount, ((hnew c).map _).count_eq, (hold.map _).count_eq, List.map_cons, List.map_cons]
  simp only [List.count_cons, List.count_nil]
  omega

/-- `s` has the types of `r`, but for their patterns, and each pattern has gained as many holders as
slots. One pattern may have a holder more, that no slot will let go of. -/
structure Shifts (lost : Option PatternId) (r s : Registry) : Prop extends Reslots r s where
  wellFormed : s.pool.WellFormed
  roots : ∀ n, s.pool.roots n + r.uses n = r.pool.roots n + s.uses n + lost.toList.count n

theorem shifts_of_pool (hs : s = { r with pool := s.pool }) (hp : s.pool.WellFormed)
    (hroots : ∀ n, s.pool.roots n = r.pool.roots n + lost.toList.count n) : Shifts lost r s where
  toReslots := by
    rw [hs]
    exact SameTypes.reslots ⟨rfl, rfl⟩
  wellFormed := hp
  roots n := by
    have huses : s.uses n = r.uses n := by
      rw [hs]
      rfl
    rw [hroots, huses]
    omega

theorem Shifts.refl (hp : r.pool.WellFormed) : Shifts none r r := shifts_of_pool rfl hp fun _ => rfl

theorem Shifts.trans (h : Shifts none r s) (h' : Shifts lost s u) : Shifts lost r u where
  toReslots := h.toReslots.trans h'.toReslots
  wellFormed := h'.wellFormed
  roots n := by
    have hn := h.roots n
    have hn' := h'.roots n
    rw [Option.toList_none, List.count_nil] at hn
    omega

def Loose (r : Registry) : Prop :=
  ∃ id t slot n, r.get? id = some t ∧ t.pattern? slot = some n ∧ r.pool.roots n = 0

def Stuck (r s : Registry) : Prop := s.Loose ∧ ∃ lost, Shifts lost r s

theorem Shifts.stuck (h : Shifts none r s) (h' : Stuck s u) : Stuck r u := by
  obtain ⟨hloose, lost, hshifts⟩ := h'
  exact ⟨hloose, lost, h.trans hshifts⟩

/-- The canonical pattern is held before the old one is let go of, and stays held if that fails. -/
theorem Numbered.yields_canonicalizeSlot_shifts (h : r.Numbered) (hp : r.pool.WellFormed)
    (id : FileTypeId) (slot : Slot) :
    Yields (canonicalizeSlot id slot) r (fun _ s => Shifts none r s) fun s => Stuck r s := by
  refine Yields.bind (P := fun a s => a = r ∧ s = r) ⟨rfl, rfl⟩ ?_
  rintro _ r ⟨rfl, rfl⟩
  split
  case h_1 => exact Shifts.refl hp
  case h_2 n hsome =>
    obtain ⟨t, hget, hslot⟩ := Option.bind_eq_some_iff.1 hsome
    refine ((yields_onPool_edit (Edit.yields_canonicalize hp n)).mono (fun _ _ hs => hs) ?_).bind ?_
    · rintro s ⟨hs, hpool, hfree⟩
      rw [hpool] at hs
      subst hs
      exact ⟨⟨id, t, slot, n, hget, hslot, hfree⟩, none, Shifts.refl hp⟩
    rintro c s ⟨hs, hkeeps, hc⟩
    split
    case isTrue => exact shifts_of_pool hs hkeeps.wellFormed fun m => congrFun hkeeps.roots m
    case isFalse hne =>
      have hretain := succeeds_onPool (r := s) (Edit.succeeds_retain_roots hkeeps.wellFormed hc)
      refine (Yields.of_succeeds hretain).bind ?_
      rintro _ s' ⟨hs', hp', hretained⟩
      rw [hkeeps.roots] at hretained
      rw [hs] at hs'
      refine ((yields_onPool_edit (Edit.yields_release hp' n)).mono (fun _ _ hu => hu) ?_).bind ?_
      · rintro u ⟨hu, hpool, hfree⟩
        rw [hpool] at hu
        subst hu
        refine ⟨⟨id, t, slot, n, ?_, hslot, hfree⟩, some c, shifts_of_pool hs' hp' hretained⟩
        rw [hs']
        exact hget
      · rintro _ u ⟨hu, hdrops⟩
        rw [hs'] at hu
        have htypes : u.types = r.types := by rw [hu]
        have hnext : u.nextId = r.nextId := by rw [hu]
        refine Yields.bind (Yields.modify (P := fun _ v => Shifts none r v) ?_) fun _ _ hv =>
          Yields.pure hv
        rw [htypes]
        refine ⟨⟨h.reslots_setPattern hget hslot c, hnext⟩, hdrops.wellFormed, fun m => ?_⟩
        -- the slot has come to `c` and left `n`, and so has its holder
        have hcame : u.pool.roots m + [n].count m = r.pool.roots m + [c].count m := by
          rw [hdrops.roots, hretained]
        have hrefers := h.uses_setPattern hget hslot c m
        simp only [uses, references, Option.toList_none, List.count_nil] at hrefers ⊢
        omega

theorem Numbered.yields_canonicalizeAll_shifts (h : r.Numbered) (hp : r.pool.WellFormed) :
    Yields canonicalizeAll r (fun _ s => Shifts none r s) fun s => Stuck r s :=
  yields_canonicalizeAll_of (Shifts.refl hp) fun id slot _ hs =>
    ((hs.numbered h).yields_canonicalizeSlot_shifts hs.wellFormed id slot).mono (fun _ _ h' =>
      hs.trans h')
      fun _ h' => hs.stuck h'

/-! ## Histories -/

theorem fails_after {α : Type} {x : Registering α} (h : x.run' r = none) :
    Fails x r (Registering.after x r) := by
  unfold EStateM.run' EStateM.run at h
  rw [Registering.after]
  cases hrun : x r with
  | ok a s =>
    rw [hrun] at h
    exact absurd h (Option.some_ne_none a)
  | error error s => exact ⟨error, hrun⟩

/-- A type is registered completely or not at all. -/
theorem yields_register_live (hp : r.pool.WellFormed) (t : FileType) :
    Yields (register t) r (fun _ s => s.pool.WellFormed)
      fun s => (∃ n ∈ t.patterns, r.pool.contains n = false) ∧ s = r := by
  by_cases hlive : ∀ n ∈ t.patterns, r.pool.contains n = true
  · exact Yields.of_succeeds ((register_meaning hp hlive).mono fun _ _ hs => hs.1.wellFormed)
  · push Not at hlive
    have hdead : ∃ n ∈ t.patterns, r.pool.contains n = false := by simpa using hlive
    obtain ⟨error, hrun⟩ := fails_register hdead
    rw [Yields, hrun]
    exact ⟨hdead, rfl⟩

/-- The pool of a registry is well formed whatever is done to it, and whatever fails. -/
theorem Numbered.wellFormed_apply (h : r.Numbered) (hp : r.pool.WellFormed) (a : Action) :
    (a.apply r).pool.WellFormed := by
  have hafter : ∀ {α : Type} {x : Registering α}, Yields x r (fun _ s => s.pool.WellFormed)
      (·.pool.WellFormed) →
        (Registering.after x r).pool.WellFormed := by
    intro α x hx
    rw [Registering.after]
    cases hrun : x r with
    | ok a s => exact hx.of_ok hrun
    | error e s => exact hx.of_error hrun
  cases a with
  | edit c => exact (hp.obeys c).wellFormed
  | register t =>
    refine hafter ((yields_register_live hp t).mono (fun _ _ hs => hs) ?_)
    rintro s ⟨-, rfl⟩
    exact hp
  | unregister id =>
    refine hafter ((yields_unregister_drops hp id).mono (fun _ _ hs => hs.2.wellFormed) ?_)
    rintro s ⟨t, done, n, rest, -, -, -, hdrops, -⟩
    exact hdrops.wellFormed
  | canonicalizeAll =>
    refine hafter ((h.yields_canonicalizeAll_shifts hp).mono (fun _ _ hs => hs.wellFormed) ?_)
    rintro s ⟨-, lost, hshifts⟩
    exact hshifts.wellFormed

theorem Numbered.wellFormed_foldl_apply (h : r.Numbered) (hp : r.pool.WellFormed)
    (as : List Action) : (as.foldl (fun r a => a.apply r) r).pool.WellFormed := by
  induction as generalizing r with
  | nil => exact hp
  | cons a as ih => exact ih ((h.turns a).numbered h) (h.wellFormed_apply hp a)

/-- What failures leave behind, whatever has been done before. Only a type with a pattern that does
not live is not registered, and nothing has changed then. A type is gone even if some of its
patterns cannot be released; those before the first such pattern have been. Where canonicalization
fails, all types are there in their order, some with canonical patterns, but one slot refers to a
pattern without holders, and some pattern may have one holder too many. As long as clients let go of
what they hold alone, types can be removed and canonicalized. -/
theorem run_failed_change (config : Config) (as : List Action) :
    let r := as.foldl (fun r a => a.apply r) (ofConfig config)
    (∀ t s, Fails (register t) r s ↔ (∃ n ∈ t.patterns, r.pool.contains n = false) ∧ s = r) ∧
    (∀ id, ((∃ s, Fails (unregister id) r s) ↔
        ∃ t, r.get? id = some t ∧ ∃ n, r.pool.roots n < t.patterns.count n) ∧
      ∀ s, Fails (unregister id) r s → ∃ t done n rest, r.get? id = some t ∧
        t.patterns = done ++ n :: rest ∧
        s = { r with types := r.types.filter (·.1 ≠ id), pool := s.pool } ∧ s.pool.roots n = 0 ∧
          ∀ m, s.pool.roots m + done.count m = r.pool.roots m) ∧
    (∀ s, Fails canonicalizeAll r s → r.Reslots s ∧ s.Loose ∧ ∃ lost : Option PatternId, ∀ n,
      s.pool.roots n + r.uses n = r.pool.roots n + s.uses n + lost.toList.count n) ∧
    ∀ held, Reached config r held → ∀ s, ¬ Fails canonicalizeAll r s ∧
      ∀ id, ¬ Fails (unregister id) r s := by
  intro r
  have hnumbered : r.Numbered := (numbered_ofConfig config).foldl_apply as
  have hp : r.pool.WellFormed :=
    (numbered_ofConfig config).wellFormed_foldl_apply (sound_ofConfig config).holds.wellFormed as
  refine ⟨fun t s => ⟨?_, ?_⟩, fun id => ⟨unregister_fails_iff hp id, ?_⟩, ?_, fun held hheld s =>
    ⟨?_, fun id => ?_⟩⟩
  · rintro ⟨error, hrun⟩
    exact (yields_register_live hp t).of_error hrun
  · rintro ⟨hdead, rfl⟩
    exact fails_register hdead
  · rintro s ⟨error, hrun⟩
    obtain ⟨t, done, n, rest, hget, hpatterns, hs, hdrops, hfree⟩ :=
      (yields_unregister_drops hp id).of_error hrun
    exact ⟨t, done, n, rest, hget, hpatterns, hs, hfree, hdrops.roots⟩
  · rintro s ⟨error, hrun⟩
    obtain ⟨hloose, lost, hshifts⟩ := (hnumbered.yields_canonicalizeAll_shifts hp).of_error hrun
    exact ⟨hshifts.toReslots, hloose, lost, hshifts.roots⟩
  · exact hheld.sound.succeeds_canonicalizeAll.not_fails
  · exact (hheld.sound.succeeds_unregister id).not_fails

/-- A client lets go of the context of a type, which goes on living in a sequence. Its canonical
pattern is held in vain then. -/
theorem run_failed_change_in_vain :
    let r := ([.edit (.lit [97]), .edit (.seq [⟨0⟩]),
      .register { name := "t", policy := .contents, contentPattern := some ⟨1⟩ },
      .edit (.seq [⟨2⟩]), .edit (.release ⟨2⟩)] :
      List Action).foldl (fun r a => a.apply r) (ofConfig {})
    let s := Registering.after canonicalizeAll r
    Fails canonicalizeAll r s ∧ r.Reslots s ∧ s.Loose ∧
      r.pool.roots ⟨4⟩ = 0 ∧ s.pool.roots ⟨4⟩ = 1 ∧ s.uses ⟨4⟩ = 0 := by
  intro r s
  have hfails : Fails canonicalizeAll r s := fails_after (by decide +kernel)
  obtain ⟨hreslots, hloose, -⟩ := (run_failed_change {} _).2.2.1 s hfails
  exact ⟨hfails, hreslots, hloose, by decide +kernel, by decide +kernel, by decide +kernel⟩

/-- A client lets go of the context of a type, which is destroyed. Removing the type fails then, and
yet it is gone. -/
theorem unregister_fails_halfway :
    let r := ([.edit (.lit [97]),
      .register { name := "t", policy := .contents, contentPattern := some ⟨0⟩ },
      .edit (.release ⟨1⟩)] : List Action).foldl (fun r a => a.apply r) (ofConfig {})
    let s := Registering.after (unregister ⟨0⟩) r
    Fails (unregister ⟨0⟩) r s ∧ r.types.map (·.1) = [⟨0⟩] ∧ s.types.map (·.1) = [] := by
  intro r s
  exact ⟨fails_after (by decide +kernel), by decide +kernel, by decide +kernel⟩

end Registry

end Sigil
